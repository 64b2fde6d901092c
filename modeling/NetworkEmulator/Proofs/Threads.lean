/-
With threads the simulator computes what it computes without.

In a round of either pool the calls of different jobs can be swapped, so the round is its
jobs in turn (`Rounds`, `Locality`), and the jobs in turn are the handler without threads.
A pool that `wait_threads` has returned from is ready for the next round.  So a run with any
schedule of its threads is the run of the cell.  Where that does not fail, no call of a thread
does, and the threads can always go on to the end of their run.
-/
import NetworkEmulator.Model.Emulator
import NetworkEmulator.Proofs.Locality
import NetworkEmulator.Proofs.Rounds

namespace NetworkEmulator.Emulation

open Interleave

variable {K H Env In : Type} [Neg K] [One K]

namespace Cell

/-! ### What the handlers leave alone -/

section Grids

variable [LinearOrder K] [Zero K] [PacketHandler H Env In] {fuel : ℕ} {tx : Direction}
  {s s' : Cell K H Env In}

/-- A call of one grid leaves the other side alone, and all UEs are still there. -/
theorem gridCall_rest {a : GridCall} (h : s.gridCall fuel tx a = some s') :
    s'.ueList.length = s.ueList.length ∧ ∀ tx', tx ≠ tx' → s'.side tx' = s.side tx' := by
  have habout : AboutSide tx fun s : Cell K H Env In => s.gridCall fuel tx a :=
    aboutSide_gridCall fuel tx a
  obtain ⟨k, hlen, hk⟩ := habout
  obtain ⟨y, hy, rfl⟩ := Option.map_eq_some_iff.mp ((hk s).symm.trans h)
  have hlength : y.2.length = s.ueList.length := (hlen _ _ _ hy).trans (List.length_map _)
  refine ⟨?_, fun tx' hne => (side_setSide_of_ne hne s hlength).1⟩
  show (List.zipWith (Ue.setSide tx) s.ueList y.2).length = s.ueList.length
  rw [List.length_zipWith, hlength, min_self]

theorem gridCalls_rest {as : List GridCall} (h : Runs.runAll (gridCall fuel tx) s as = some s') :
    s'.ueList.length = s.ueList.length ∧ ∀ tx', tx ≠ tx' → s'.side tx' = s.side tx' := by
  refine Runs.runAll_inv' (I := fun u => u.ueList.length = s.ueList.length ∧
    ∀ tx', tx ≠ tx' → u.side tx' = s.side tx') (fun u a u' hu hcall => ?_)
    ⟨rfl, fun _ _ => rfl⟩ h
  obtain ⟨hlength, hside⟩ := gridCall_rest hcall
  exact ⟨hlength.trans hu.1, fun tx' hne => (hside tx' hne).trans (hu.2 tx' hne)⟩

/-- The two grids in turn, each with the calls it had at first. -/
theorem macStep_eq (s : Cell K H Env In) :
    Runs.runAll (act (gridCall fuel)) s (inTurn s.gridCalls [.dl, .ul]) = s.macStep fuel := by
  rw [runAll_inTurn_eq]
  show ((Runs.runAll (gridCall fuel .dl) s (s.gridCalls .dl)).bind fun s₁ =>
    (Runs.runAll (gridCall fuel .ul) s₁ (s.gridCalls .ul)).bind some) = s.macStep fuel
  unfold macStep gridStep
  cases hdl : Runs.runAll (gridCall fuel .dl) s (s.gridCalls .dl) with
  | none => rfl
  | some s₁ =>
      obtain ⟨hlength, hside⟩ := gridCalls_rest hdl
      have hgrid : s₁.grid .ul = s.grid .ul := congrArg Prod.fst (hside .ul (by decide))
      have hcalls : s₁.gridCalls .ul = s.gridCalls .ul := by
        rw [gridCalls, gridCalls, hgrid, hlength]
      rw [Option.bind_some, Option.bind_some, hcalls, Option.bind_fun_some]

/-- The two grids in turn return when the step does. -/
theorem gridsInTurn_isSome (h : s.macStep fuel = some s') :
    (Runs.runAll (act (gridCall fuel)) s (inTurn s.gridCalls [.dl, .ul])).isSome = true :=
  Option.isSome_iff_exists.mpr ⟨s', (macStep_eq s).trans h⟩

theorem macStep_length (h : s.macStep fuel = some s') : s'.ueList.length = s.ueList.length := by
  obtain ⟨s₁, hdl, hul⟩ := Option.bind_eq_some_iff.mp h
  exact (gridCalls_rest hul).1.trans (gridCalls_rest hdl).1

end Grids

section Ues

variable [PacketHandler H Env In] {M : LogMath} {fuel : ℕ} {s s' : Cell K H Env In}

/-- A step of a UE leaves the grids, and all UEs are still there. -/
theorem ueStep_rest {i : ℕ} (h : s.ueStep M fuel i = some s') :
    s'.ueList.length = s.ueList.length ∧ ∀ tx, s'.grid tx = s.grid tx := by
  refine Runs.runAll_inv' (I := fun u => u.ueList.length = s.ueList.length ∧
    ∀ tx, u.grid tx = s.grid tx) (fun u a u' hu hcall => ?_) ⟨rfl, fun _ => rfl⟩ h
  obtain ⟨v, v', -, -, rfl⟩ := ueCall_eq_some.mp hcall
  refine ⟨List.length_set.trans hu.1, fun tx => Eq.trans ?_ (hu.2 tx)⟩
  cases tx <;> rfl

theorem uesStep_rest (h : s.uesStep M fuel = some s') :
    s'.ueList.length = s.ueList.length ∧ ∀ tx, s'.grid tx = s.grid tx := by
  refine Runs.runAll_inv' (I := fun u => u.ueList.length = s.ueList.length ∧
    ∀ tx, u.grid tx = s.grid tx) (fun u i u' hu hstep => ?_) ⟨rfl, fun _ => rfl⟩ h
  obtain ⟨hlength, hgrid⟩ := ueStep_rest hstep
  exact ⟨hlength.trans hu.1, fun tx => (hgrid tx).trans (hu.2 tx)⟩

/-- The UEs in turn. -/
theorem uesStep_eq (s : Cell K H Env In) :
    Runs.runAll (act (ueCall M fuel)) s (inTurn (fun _ => Ue.calls) (List.range s.ueList.length))
      = s.uesStep M fuel := runAll_inTurn_eq _ _ _ s

/-- The UEs in turn return when their step does. -/
theorem uesInTurn_isSome (h : s.uesStep M fuel = some s') :
    (Runs.runAll (act (ueCall M fuel)) s
      (inTurn (fun _ => Ue.calls) (List.range s.ueList.length))).isSome = true :=
  Option.isSome_iff_exists.mpr ⟨s', (uesStep_eq s).trans h⟩

end Ues

end Cell

/-! ### A cell to run

One UE with simulated traffic, and a block in each direction.
-/

/-- Functions that are easy to evaluate. -/
def roughMath : LogMath where
  log _ := -1
  log2 x := x
  log10 _ := 0
  pow10 x := |x|

/-- A layer of the UE. -/
def smallPhy (tx : Direction) : PhyLayer ℚ :=
  .make roughMath tx 0 1
    { ue := ⟨1, 1, 1, 0⟩, enb := ⟨.qam64, 3500000000, 12, 1⟩, mcsTables := false
      scenario := .indoorOpenOffice, stochastics := false, cqiMode := .rbgs, targetBer := 1
      scalingFactor := 1, antennaGainTx := 0, antennaGainRx := 0, txPower := 40, alphaUl := 1
      nominalPuschP0 := 0, setUlPow := true, txPowerUl := 20, powerBoost := 0, noiseInterf := 0
      bandwidth := 100, metricH := { metricT := .maxTp, metricF := fun _ _ _ => 1 } }
    (fun _ => 0) (fun _ => 0) (fun _ => 0)

/-- A grid. -/
def smallGrid (tx : Direction) : CellGrid ℚ where
  nTimeRbg := 1
  nFreqRbg := 1
  nSymRbg := 14
  duplexingT := .fdd
  tddH := .make ⟨1, 1, 45⟩ tx 14
  maxCapacityBits := 1000
  rbGrid _ f := { f := f }

/-- The UE, which generates a packet of 300 bits in each direction and step. -/
def smallUe : Ue ℚ SimulatedPacketHandler Empty ℚ where
  pdcpDl := .simulated { pktSize := 300 } 0 {} (35 / 100)
  pdcpUl := .simulated { pktSize := 300 } 0 {} (35 / 100)
  phyDl := smallPhy .dl
  phyUl := smallPhy .ul
  distance := 10
  phyO2i := .outdoor
  phyCqiPeriod := 1
  phyRiPeriod := 1
  phyDopplerF := 0
  world _ :=
    { arrivals := fun _ => [], late := fun _ => [], input := fun _ => 300, distance := 10
      macroFading := 0 }

/-- The cell. -/
def smallCell : Cell ℚ SimulatedPacketHandler Empty ℚ where
  gridDl := smallGrid .dl
  gridUl := smallGrid .ul
  ueList := [smallUe]

/-- Two workers take turns. -/
def turns (n : ℕ) : List (Fin 2) := (List.range n).flatMap fun _ => [0, 1]

/-- Two steps of it, with the two grids interleaved in the second. -/
def smallRun : List (ℚ × Schedule (Fin 2) (Fin 1)) :=
  let ue := List.replicate 12 0
  [(1 / 1000, ⟨List.replicate 18 0, ue⟩),
    (2 / 1000, ⟨[0, 1, 0, 0, 1, 1, 0, 0, 1, 1, 0, 0, 1, 1, 0, 1, 0, 1], ue⟩)]

/-- What is sent in each direction. -/
def sentBits (s : Cell ℚ SimulatedPacketHandler Empty ℚ) : ℚ × ℚ :=
  (s.gridDl.lastStepMetrics.effectiveBits, s.gridUl.lastStepMetrics.effectiveBits)

namespace Emulator

variable {W V : Type} [DecidableEq W] [DecidableEq V] [Fintype W] [Fintype V]

/-! ### Pools between their rounds -/

/-- The pools that are used are between two rounds, with their jobs. -/
structure Ready (e : Emulator K H Env In W V) : Prop where
  mac : e.threading = true → e.macShared.AtRest [.dl, .ul]
  ue : e.multithreading = true → e.ueShared.AtRest (List.range e.cell.ueList.length)

/-- What a round needs of a pool is not about the shared state. -/
private theorem atRest_congr {J C σ U : Type} {s s' : SharedPool U J C σ} [Fintype U]
    {jobs : List J} (h : s.AtRest jobs) (hpool : s'.pool = s.pool) : s'.AtRest jobs :=
  ⟨by rw [hpool]; exact h.jobs_eq, by rw [hpool]; exact h.caller, by rw [hpool]; exact h.waiting,
    by rw [hpool]; exact h.up, by rw [hpool]; exact h.sound⟩

theorem ready_make (cell : Cell K H Env In) (threading multithreading : Bool)
    (macIndex ueIndex : ℤ) :
    (make cell threading multithreading macIndex ueIndex : Emulator K H Env In W V).Ready := by
  refine ⟨fun h => ?_, fun h => ?_⟩
  · obtain rfl : threading = true := h
    exact SharedPool.atRest_new macIndex [Direction.dl, .ul] cell
  · obtain rfl : multithreading = true := h
    exact SharedPool.atRest_new ueIndex (List.range cell.ueList.length) cell

variable [LinearOrder K] [Zero K] [PacketHandler H Env In] {M : LogMath} {fuel : ℕ}
  {e e' : Emulator K H Env In W V}

omit [DecidableEq V] in
/-- `mac_layer::step`. -/
theorem Ready.macStep (h : e.Ready) {schedule : List W}
    (hstep : e.macStep fuel schedule = some e') :
    e.cell.macStep fuel = some e'.cell ∧ e'.Ready := by
  unfold Emulator.macStep at hstep
  split at hstep
  · rename_i hthreading
    obtain ⟨s, hround, rfl⟩ := Option.map_eq_some_iff.mp hstep
    obtain ⟨hrun, hrest⟩ := (h.mac hthreading).round
      (Cell.gridCall_independent fuel) (by decide) hround
    have hcell : e.cell.macStep fuel = some s.shared := (Cell.macStep_eq e.cell).symm.trans hrun
    refine ⟨hcell, fun _ => atRest_congr hrest rfl, fun hue => ?_⟩
    show SharedPool.AtRest _ (List.range s.shared.ueList.length)
    rw [Cell.macStep_length hcell]
    exact atRest_congr (h.ue hue) rfl
  · rename_i hthreading
    obtain ⟨cell, hcell, rfl⟩ := Option.map_eq_some_iff.mp hstep
    refine ⟨hcell, fun hmac => absurd hmac hthreading, fun hue => ?_⟩
    show SharedPool.AtRest _ (List.range cell.ueList.length)
    rw [Cell.macStep_length hcell]
    exact atRest_congr (h.ue hue) rfl

omit [LinearOrder K] [Zero K] [DecidableEq W] [DecidableEq V] [PacketHandler H Env In] in
/-- The pool of `ue_handler` when its step begins. -/
private theorem Ready.ue_atRest (h : e.Ready) (hthreading : e.multithreading = true) (t : ℚ) :
    ({ e with cell := e.cell.addCurrentT t } : Emulator K H Env In W V).ueShared.AtRest
      (List.range (e.cell.addCurrentT t).ueList.length) := by
  have hcount : (e.cell.addCurrentT t).ueList.length = e.cell.ueList.length := List.length_map _
  rw [hcount]
  exact atRest_congr (h.ue hthreading) rfl

omit [DecidableEq W] [LinearOrder K] [Zero K] in
/-- `ue_handler::step`. -/
theorem Ready.uesStep (h : e.Ready) {t : ℚ} {schedule : List V}
    (hstep : e.uesStep M fuel t schedule = some e') :
    (e.cell.addCurrentT t).uesStep M fuel = some e'.cell ∧ e'.Ready := by
  unfold Emulator.uesStep at hstep
  simp only at hstep
  split at hstep
  · rename_i hthreading
    obtain ⟨s, hround, rfl⟩ := Option.map_eq_some_iff.mp hstep
    obtain ⟨hrun, hrest⟩ := (h.ue_atRest hthreading t).round (Cell.ueCall_independent M fuel)
      List.nodup_range hround
    have hcell : (e.cell.addCurrentT t).uesStep M fuel = some s.shared :=
      (Cell.uesStep_eq _).symm.trans hrun
    refine ⟨hcell, fun hmac => atRest_congr (h.mac hmac) rfl, fun _ => ?_⟩
    show SharedPool.AtRest _ (List.range s.shared.ueList.length)
    rw [(Cell.uesStep_rest hcell).1]
    exact atRest_congr hrest rfl
  · rename_i hthreading
    obtain ⟨cell, hcell, rfl⟩ := Option.map_eq_some_iff.mp hstep
    exact ⟨hcell, fun hmac => atRest_congr (h.mac hmac) rfl, fun hue => absurd hue hthreading⟩

/-- A step. -/
theorem Ready.step (h : e.Ready) {x : ℚ × Schedule W V}
    (hstep : e.step M fuel x = some e') : e.cell.step M fuel x.1 = some e'.cell ∧ e'.Ready := by
  obtain ⟨e₁, hmac, hue⟩ := Option.bind_eq_some_iff.mp hstep
  obtain ⟨hcell, hready⟩ := h.macStep hmac
  obtain ⟨hcell', hready'⟩ := hready.uesStep hue
  exact ⟨Option.bind_eq_some_iff.mpr ⟨e₁.cell, hcell, hcell'⟩, hready'⟩

/-! ### Runs -/

/-- A run goes through the states of the cell, and leaves pools that are ready. -/
theorem Ready.exec (h : e.Ready) {xs : List (ℚ × Schedule W V)}
    (hrun : e.exec M fuel xs = some e') :
    e.cell.exec M fuel (xs.map Prod.fst) = some e'.cell ∧ e'.Ready := by
  induction xs generalizing e with
  | nil =>
      obtain rfl := Option.some.inj hrun
      exact ⟨rfl, h⟩
  | cons x xs ih =>
      obtain ⟨e₁, hstep, hrun⟩ := Runs.runAll_cons.mp hrun
      obtain ⟨hcell, hready⟩ := h.step hstep
      obtain ⟨hcells, hready'⟩ := ih hready hrun
      exact ⟨Runs.runAll_cons.mpr ⟨e₁.cell, hcell, hcells⟩, hready'⟩

/-- **Threads do not change what the simulator computes.**  Whether the handlers have threads,
how many, and however these are scheduled in each step: a run ends with the cell that the run
without threads ends with. -/
theorem threads_agree (M : LogMath) (fuel : ℕ) (cell : Cell K H Env In)
    (threading multithreading : Bool) (macIndex ueIndex : ℤ) (xs : List (ℚ × Schedule W V))
    (e : Emulator K H Env In W V)
    (hrun : (make cell threading multithreading macIndex ueIndex).exec M fuel xs = some e) :
    cell.exec M fuel (xs.map Prod.fst) = some e.cell :=
  ((ready_make cell threading multithreading macIndex ueIndex).exec hrun).1

/-- Two workers interleave the two grids, and both send a packet. -/
theorem threads_agree_small : ∃ e : Emulator ℚ SimulatedPacketHandler Empty ℚ (Fin 2) (Fin 1),
    (make smallCell true true 0 0).exec roughMath 5 smallRun = some e ∧
      sentBits e.cell = (300, 300) ∧
      smallCell.exec roughMath 5 [1 / 1000, 2 / 1000] = some e.cell := by
  refine Runs.exists_of_view (fun e => sentBits e.cell) (x := (300, 300)) (by decide +kernel)
    fun e he hview => ?_
  exact ⟨hview, threads_agree roughMath 5 smallCell true true 0 0 smallRun e he⟩

omit [DecidableEq V] [Fintype W] [Fintype V] in
/-- `mac_layer::step` leaves the other handler alone. -/
private theorem macStep_multithreading {mac : List W} (h : e.macStep fuel mac = some e') :
    e'.multithreading = e.multithreading := by
  unfold Emulator.macStep at h
  split at h
  · obtain ⟨s, -, rfl⟩ := Option.map_eq_some_iff.mp h
    rfl
  · obtain ⟨s, -, rfl⟩ := Option.map_eq_some_iff.mp h
    rfl

/-- A round begins with nothing done. -/
private theorem begun_nil {U J C σ : Type} [DecidableEq U] [Fintype U] {s : SharedPool U J C σ}
    {jobs : List J} (h : s.AtRest jobs) (code : JobCode J C σ) :
    (s.begun code []).isSome = true := by
  rw [SharedPool.begun, SharedPool.doJobs, ThreadPool.step, if_pos h.caller]
  rfl

variable [Nonempty W] [Nonempty V]

omit [DecidableEq V] [Nonempty V] in
/-- Whatever the workers of `mac_layer` have done in their round, its step can go on to its
end. -/
private theorem Ready.exists_macStep (h : e.Ready) {cell : Cell K H Env In}
    (hcell : e.cell.macStep fuel = some cell) (mac : List W)
    (hmac : e.threading = true → (e.macShared.begun (macCode fuel e.cell) mac).isSome = true) :
    ∃ more e₁, e.macStep fuel (mac ++ more) = some e₁ ∧ e₁.cell = cell ∧ e₁.Ready := by
  obtain ⟨more, e₁, hstep⟩ : ∃ more e₁, e.macStep fuel (mac ++ more) = some e₁ := by
    unfold Emulator.macStep
    by_cases hthreading : e.threading = true
    · obtain ⟨s, hs⟩ := Option.isSome_iff_exists.mp (hmac hthreading)
      obtain ⟨more, s', hround⟩ := (h.mac hthreading).finish (macCode fuel e.cell)
        (Cell.gridCall_independent fuel) (by decide) (Cell.gridsInTurn_isSome hcell) hs
      exact ⟨more, _, by rw [if_pos hthreading, hround]; rfl⟩
    · exact ⟨[], _, by rw [if_neg hthreading, hcell]; rfl⟩
  obtain ⟨hserial, hready⟩ := h.macStep hstep
  exact ⟨more, e₁, hstep, Option.some.inj (hserial.symm.trans hcell), hready⟩

omit [LinearOrder K] [Zero K] [DecidableEq W] [Nonempty W] in
/-- Whatever the workers of `ue_handler` have done in their round, its step can go on to its
end. -/
private theorem Ready.exists_uesStep (h : e.Ready) {t : ℚ} {cell : Cell K H Env In}
    (hcell : (e.cell.addCurrentT t).uesStep M fuel = some cell) (ue : List V)
    (hue : e.multithreading = true →
      (({ e with cell := e.cell.addCurrentT t } : Emulator K H Env In W V).ueShared.begun
        (ueCode M fuel) ue).isSome = true) :
    ∃ more e₁, e.uesStep M fuel t (ue ++ more) = some e₁ ∧ e₁.cell = cell ∧ e₁.Ready := by
  obtain ⟨more, e₁, hstep⟩ : ∃ more e₁, e.uesStep M fuel t (ue ++ more) = some e₁ := by
    unfold Emulator.uesStep
    by_cases hthreading : e.multithreading = true
    · obtain ⟨s, hs⟩ := Option.isSome_iff_exists.mp (hue hthreading)
      obtain ⟨more, s', hround⟩ := (h.ue_atRest hthreading t).finish (ueCode M fuel)
        (Cell.ueCall_independent M fuel) List.nodup_range (Cell.uesInTurn_isSome hcell) hs
      exact ⟨more, _, by simp only [if_pos hthreading, hround]; rfl⟩
    · exact ⟨[], _, by simp only [if_neg hthreading, hcell]; rfl⟩
  obtain ⟨hserial, hready⟩ := h.uesStep hstep
  exact ⟨more, e₁, hstep, Option.some.inj (hserial.symm.trans hcell), hready⟩

/-- The threads can go through any run of the cell. -/
private theorem Ready.exists_exec {ts : List ℚ} {cell : Cell K H Env In} (h : e.Ready)
    (hcell : e.cell.exec M fuel ts = some cell) :
    ∃ ys e', e.exec M fuel ys = some e' ∧ ys.map Prod.fst = ts ∧ e'.cell = cell := by
  induction ts generalizing e with
  | nil => exact ⟨[], e, rfl, rfl, Option.some.inj hcell⟩
  | cons t ts ih =>
      obtain ⟨cell₂, hstep, hcell⟩ := Runs.runAll_cons.mp hcell
      obtain ⟨cell₁, hmac, hue⟩ := Option.bind_eq_some_iff.mp hstep
      obtain ⟨mac, e₁, hmacStep, rfl, hready₁⟩ := h.exists_macStep hmac []
        fun hthreading => begun_nil (h.mac hthreading) _
      obtain ⟨ue, e₂, hueStep, rfl, hready₂⟩ := hready₁.exists_uesStep hue []
        fun hthreading => begun_nil (hready₁.ue_atRest hthreading t) _
      obtain ⟨ys, e', hys, htimes, hcell'⟩ := ih hready₂ hcell
      refine ⟨(t, ⟨[] ++ mac, [] ++ ue⟩) :: ys, e', Runs.runAll_cons.mpr ⟨e₂, ?_, hys⟩, ?_, hcell'⟩
      · exact Option.bind_eq_some_iff.mpr ⟨e₁, hmacStep, hueStep⟩
      · rw [List.map_cons, htimes]

/-- **No schedule of the threads makes a run fail.**  In a run that the cell goes through without
threads, whatever the workers of either pool have done in their round of a step: the next call
of any of them returns, and the threads can go on to the end of the run, where the cell is that
of the run without threads. -/
theorem threads_never_fail (M : LogMath) (fuel : ℕ) (cell cell' : Cell K H Env In)
    (threading multithreading : Bool) (macIndex ueIndex : ℤ) (xs : List (ℚ × Schedule W V))
    (e : Emulator K H Env In W V) (t : ℚ) (ts : List ℚ)
    (hrun : (make cell threading multithreading macIndex ueIndex).exec M fuel xs = some e)
    (hserial : cell.exec M fuel (xs.map Prod.fst ++ t :: ts) = some cell') :
    (e.threading = true → ∀ mac s, e.macShared.begun (macCode fuel e.cell) mac = some s →
      (∀ w tx a rest, s.pool.workers w = .taken tx → s.left w = a :: rest →
        (s.shared.gridCall fuel tx a).isSome = true) ∧
      ∃ more ue ys e', e.exec M fuel ((t, ⟨mac ++ more, ue⟩) :: ys) = some e' ∧
        ys.map Prod.fst = ts ∧ e'.cell = cell') ∧
    (e.multithreading = true → ∀ mac e₁, e.macStep fuel mac = some e₁ → ∀ ue s,
      ({ e₁ with cell := e₁.cell.addCurrentT t } : Emulator K H Env In W V).ueShared.begun
        (ueCode M fuel) ue = some s →
      (∀ w i a rest, s.pool.workers w = .taken i → s.left w = a :: rest →
        (s.shared.ueCall M fuel i a).isSome = true) ∧
      ∃ more ys e', e.exec M fuel ((t, ⟨mac, ue ++ more⟩) :: ys) = some e' ∧
        ys.map Prod.fst = ts ∧ e'.cell = cell') ∧
    ∃ ys e', e.exec M fuel ys = some e' ∧ ys.map Prod.fst = t :: ts ∧ e'.cell = cell' := by
  obtain ⟨hbefore, hready⟩ :=
    (ready_make cell threading multithreading macIndex ueIndex).exec hrun
  have hrest : e.cell.exec M fuel (t :: ts) = some cell' := by
    rw [Cell.exec, Runs.runAll_append] at hserial
    obtain ⟨c, hc, hrest⟩ := Option.bind_eq_some_iff.mp hserial
    rwa [Option.some.inj (hc.symm.trans hbefore)] at hrest
  obtain ⟨cell₂, hstep, hlater⟩ := Runs.runAll_cons.mp hrest
  obtain ⟨cell₁, hmac, hue⟩ := Option.bind_eq_some_iff.mp hstep
  refine ⟨fun hthreading mac s hs => ⟨fun w tx a rest hw hleft => ?_, ?_⟩,
    fun hthreading mac e₁ he₁ ue s hs => ?_, hready.exists_exec hrest⟩
  · exact (hready.mac hthreading).call_isSome (macCode fuel e.cell)
      (Cell.gridCall_independent fuel) (by decide) (Cell.gridsInTurn_isSome hmac) hs hw hleft
  · obtain ⟨more, e₁, hmacStep, rfl, hready₁⟩ := hready.exists_macStep hmac mac
      fun _ => Option.isSome_iff_exists.mpr ⟨s, hs⟩
    obtain ⟨ue, e₂, hueStep, rfl, hready₂⟩ := hready₁.exists_uesStep hue []
      fun hthreading => begun_nil (hready₁.ue_atRest hthreading t) _
    obtain ⟨ys, e', hys, htimes, hcell'⟩ := hready₂.exists_exec hlater
    exact ⟨more, [] ++ ue, ys, e', Runs.runAll_cons.mpr
      ⟨e₂, Option.bind_eq_some_iff.mpr ⟨e₁, hmacStep, hueStep⟩, hys⟩, htimes, hcell'⟩
  · obtain ⟨hcell₁, hready₁⟩ := hready.macStep he₁
    obtain rfl := Option.some.inj (hmac.symm.trans hcell₁)
    have hthreading₁ := (macStep_multithreading he₁).trans hthreading
    refine ⟨fun w i a rest hw hleft => ?_, ?_⟩
    · exact (hready₁.ue_atRest hthreading₁ t).call_isSome (ueCode M fuel)
        (Cell.ueCall_independent M fuel) List.nodup_range (Cell.uesInTurn_isSome hue) hs hw hleft
    · obtain ⟨more, e₂, hueStep, rfl, hready₂⟩ := hready₁.exists_uesStep hue ue
        fun _ => Option.isSome_iff_exists.mpr ⟨s, hs⟩
      obtain ⟨ys, e', hys, htimes, hcell'⟩ := hready₂.exists_exec hlater
      exact ⟨more, ys, e', Runs.runAll_cons.mpr
        ⟨e₂, Option.bind_eq_some_iff.mpr ⟨e₁, he₁, hueStep⟩, hys⟩, htimes, hcell'⟩

/-- A cell with two UEs. -/
def twoCell : Cell ℚ SimulatedPacketHandler Empty ℚ :=
  { smallCell with ueList := [smallUe, smallUe] }

/-- Two workers in either pool, in the middle of the round of the grids and of that of the UEs. -/
theorem threads_never_fail_two :
    let e : Emulator ℚ SimulatedPacketHandler Empty ℚ (Fin 2) (Fin 2) := make twoCell true true 0 0
    ∃ cell', twoCell.exec roughMath 5 [1 / 1000, 2 / 1000] = some cell' ∧
      (∃ more ue ys e', e.exec roughMath 5 ((1 / 1000, ⟨turns 3 ++ more, ue⟩) :: ys) = some e' ∧
        ys.map Prod.fst = [2 / 1000] ∧ e'.cell = cell') ∧
      ∃ more ys e', e.exec roughMath 5 ((1 / 1000, ⟨turns 11, turns 4 ++ more⟩) :: ys) = some e' ∧
        ys.map Prod.fst = [2 / 1000] ∧ e'.cell = cell' := by
  intro e
  obtain ⟨cell', hserial⟩ : ∃ cell', twoCell.exec roughMath 5 [1 / 1000, 2 / 1000] = some cell' :=
    Option.isSome_iff_exists.mp (by decide +kernel)
  obtain ⟨s, hs⟩ : ∃ s, e.macShared.begun (macCode 5 e.cell) (turns 3) = some s :=
    Option.isSome_iff_exists.mp (by decide +kernel)
  obtain ⟨s', hs'⟩ : ∃ s', ((e.macStep 5 (turns 11)).bind fun e₁ =>
      ({ e₁ with cell := e₁.cell.addCurrentT (1 / 1000) } :
        Emulator ℚ SimulatedPacketHandler Empty ℚ (Fin 2) (Fin 2)).ueShared.begun
          (ueCode roughMath 5) (turns 4)) = some s' :=
    Option.isSome_iff_exists.mp (by decide +kernel)
  obtain ⟨e₁, he₁, hs'⟩ := Option.bind_eq_some_iff.mp hs'
  obtain ⟨hmac, hue, -⟩ := threads_never_fail roughMath 5 twoCell cell' true true 0 0 [] e
    (1 / 1000) [2 / 1000] rfl hserial
  exact ⟨cell', hserial, (hmac rfl (turns 3) s hs).2,
    (hue rfl (turns 11) e₁ he₁ (turns 4) s' hs').2⟩

end Emulator

end NetworkEmulator.Emulation
