/-
What the grids of the cell report of a step.

A grid of the cell is the grid of its direction (`SharedGrid`), so what is true of the
metrics of one step of that grid is true of the cell, as long as it stays `Sound` while the
other grid and the UEs run.  The bits that a grid says were sent are those that the UEs
pushed to their release side in that step, over all UEs.
-/
import NetworkEmulator.Proofs.SharedLayers
import NetworkEmulator.Proofs.StepMetrics

namespace NetworkEmulator

variable {K H Env In : Type} [LinearOrder K] [Zero K] [Neg K] [One K] [PacketHandler H Env In]

/-! ### What a step of a grid sends -/

/-- The bits that a layer has pushed to its release side. -/
def PdcpLayer.sentBits (q : PdcpLayer (Observed H)) : ℚ :=
  weight IpPkt.size (q.packetH.pushed.flatMap HarqPkt.pkts)

namespace MacGrid

/-- The bits that the UEs have pushed to their release sides. -/
def sentBits (g : MacGrid K (Observed H)) : ℚ := weight PdcpLayer.sentBits g.pdcps

variable {fuel : ℕ} {x : GridInput} {g g' : MacGrid K (Observed H)}

omit [LinearOrder K] [Zero K] in
/-- A block whose UE answers. -/
private theorem Sound.handlePkt_sent (h : g.Sound) {b : Rb ℚ K} {syms : ℕ} {effTp : ℚ}
    {pdcps : List (PdcpLayer (Observed H))}
    (hhandle : g.handlePkt fuel x b syms = some (effTp, pdcps)) :
    weight PdcpLayer.sentBits pdcps = g.sentBits + effTp := by
  simp only [MacGrid.handlePkt] at hhandle
  split at hhandle
  · cases hhandle
  · rename_i q hq
    obtain ⟨⟨sent, q'⟩, hrun, heq⟩ := Option.map_eq_some_iff.mp hhandle
    obtain ⟨rfl, rfl⟩ := Prod.mk.inj heq
    obtain ⟨new, hpushed, hsent, -⟩ :=
      (h.unstored q (List.mem_of_getElem? hq)).handlePkt_pushed hrun
    have hq' : q'.sentBits = q.sentBits + sent := by
      rw [PdcpLayer.sentBits, hpushed, List.flatMap_append, weight_append, hsent]
      rfl
    have hset := weight_set (w := PdcpLayer.sentBits) hq q'
    rw [hq'] at hset
    rw [sentBits]
    linarith

/-- A block sends the bits it reports. -/
private theorem Sound.visit_sent (h : g.Sound) {flags : List Bool} {rbg : ℕ × ℕ}
    {c : MacGrid K (Observed H) × List Bool}
    (hvisit : visitRbg fuel x (g, flags) rbg = some c) :
    c.1.sentBits - c.1.lastStepMetrics.effectiveBits
      = g.sentBits - g.lastStepMetrics.effectiveBits := by
  obtain ⟨g', hserve, rfl⟩ := Option.map_eq_some_iff.mp hvisit
  simp only [MacGrid.serve] at hserve
  by_cases hassigned : ((g.rbGrid rbg.1 rbg.2).estimateParams (x.syms rbg.1) g.ueList
      g.hasPackets).1.checkUeAssignment.1 = true
  · rw [if_pos hassigned] at hserve
    obtain ⟨⟨effTp, pdcps⟩, hhandle, rfl⟩ := Option.map_eq_some_iff.mp hserve
    have hsent := h.handlePkt_sent hhandle
    obtain ⟨hscheduled, -, -, heff⟩ := Rb.handlePacket_scheduled hassigned (x.syms rbg.1) effTp
    rw [← RbGrid.visit_rbGrid] at hscheduled heff
    obtain ⟨n, flags', -, -, -, hcount⟩ := count_scheduled (g := { g with
      toRbGrid := g.toRbGrid.visit rbg.1 rbg.2 (x.syms rbg.1) g.hasPackets fun _ _ => effTp
      pdcps := pdcps
      lastServed := g.lastServed ++ [⟨rbg.1, rbg.2, ((g.rbGrid rbg.1 rbg.2).estimateParams
        (x.syms rbg.1) g.ueList g.hasPackets).1.maxMetric.index⟩] }) flags hscheduled
    rw [hcount]
    show weight PdcpLayer.sentBits pdcps - (g.lastStepMetrics.effectiveBits + _) = _
    rw [heff, hsent]
    ring
  · rw [if_neg hassigned] at hserve
    obtain rfl := Option.some.inj hserve
    have hunscheduled := Rb.handlePacket_unscheduled hassigned (x.syms rbg.1) 0
    rw [← RbGrid.visit_rbGrid] at hunscheduled
    rw [count_unscheduled _ flags hunscheduled]
    rfl

/-- **A step sends the bits it reports.** -/
theorem Sound.step_sent (h : g.Sound) (hstep : g.step fuel x = some g') :
    g'.sentBits = g.sentBits + g'.lastStepMetrics.effectiveBits := by
  obtain ⟨s, hrun, rfl⟩ := Option.map_eq_some_iff.mp hstep
  obtain ⟨-, -, hkept⟩ : ∃ done, Counting g done s ∧
      s.1.sentBits - s.1.lastStepMetrics.effectiveBits = g.sentBits := by
    refine Runs.runAll_inv' (I := fun c : MacGrid K (Observed H) × List Bool => ∃ done,
      Counting g done c ∧ c.1.sentBits - c.1.lastStepMetrics.effectiveBits = g.sentBits)
      (fun c rbg c' hc hvisit => ?_) ⟨[], h.counting, sub_zero _⟩ hrun
    obtain ⟨done, hcounting, hsent⟩ := hc
    exact ⟨_, hcounting.visit hvisit, (hcounting.sound.visit_sent hvisit).trans hsent⟩
  have hsent : s.1.finishStep.sentBits = s.1.sentBits := rfl
  have heff : s.1.finishStep.lastStepMetrics.effectiveBits = s.1.lastStepMetrics.effectiveBits :=
    rfl
  rw [hsent, heff]
  linarith

/-- What a grid reports of a step from `g` to `g'` is what happened. -/
structure Reports (g g' : MacGrid K (Observed H)) : Prop where
  effective : g'.lastStepMetrics.effectiveBits ≤ g'.lastStepMetrics.scheduledBits
  efficiency : 0 ≤ g'.lastStepMetrics.schedulingEfficiencyRatio ∧
    g'.lastStepMetrics.schedulingEfficiencyRatio ≤ 1
  utilization : 0 ≤ g'.lastStepMetrics.utilizationRatio ∧ g'.lastStepMetrics.utilizationRatio ≤ 1
  rbgs : g'.lastStepMetrics.scheduledRbgCount + g'.lastStepMetrics.emptyRbgCount
    = g.nFreqRbg * g.nTimeRbg
  uesOfList : g'.lastStepMetrics.scheduledUeCount ≤ g.ueList.length
  uesOfRbgs : g'.lastStepMetrics.scheduledUeCount ≤ g'.lastStepMetrics.scheduledRbgCount
  sent : g'.sentBits = g.sentBits + g'.lastStepMetrics.effectiveBits

theorem Sound.step_reports (h : g.Sound) (hstep : g.step fuel x = some g') : Reports g g' := by
  obtain ⟨-, hc⟩ := h.step hstep
  refine ⟨hc.effective, hc.efficiency, hc.utilization, ?_, hc.uesOfList, hc.uesOfRbgs,
    h.step_sent hstep⟩
  rw [hc.rbgs, length_rbgs, Nat.cast_mul]

end MacGrid

/-! ### The grids of the cell -/

namespace Emulation.Cell

/-- The grid of a direction, with its sides of the UEs. -/
def view (s : Cell K H Env In) (tx : Direction) : MacGrid K H :=
  let (grid, ues) := s.side tx
  { nTimeRbg := grid.nTimeRbg
    nFreqRbg := grid.nFreqRbg
    ueList := ues.map fun p => p.1.toPhyMetrics
    rbGrid := grid.rbGrid
    pdcps := ues.map Prod.snd
    maxCapacityBits := grid.maxCapacityBits
    lastStepMetrics := grid.lastStepMetrics }

/-- Between two steps every block is reset, and no layer has a block stored. -/
structure Sound (s : Cell K H Env In) : Prop where
  rest : ∀ tx, ((s.view tx).toRbGrid).AtRest
  unstored : ∀ u ∈ s.ueList, ∀ tx, (u.pdcp tx).Unstored

variable {M : LogMath} {fuel : ℕ} {s s' : Cell K H Env In} {tx : Direction} {g : MacGrid K H}

omit [LinearOrder K] [Zero K] [PacketHandler H Env In] in
theorem shows_view (s : Cell K H Env In) (tx : Direction) : s.Shows tx (s.view tx) :=
  ⟨⟨rfl, rfl, rfl, rfl, rfl⟩, List.map_map, List.map_map⟩

omit [LinearOrder K] [Zero K] [PacketHandler H Env In] in
private theorem view_of_side (h : s'.side tx = s.side tx) : s'.view tx = s.view tx := by
  rw [view, h, view]

omit [LinearOrder K] [Zero K] [PacketHandler H Env In] in
/-- The cell is sound when the grids it shows are. -/
theorem sound_iff : s.Sound ↔ ∀ tx, (s.view tx).Sound := by
  constructor
  · intro h tx
    refine ⟨h.rest tx, ?_, fun q hq => ?_⟩
    · rw [(s.shows_view tx).ues, (s.shows_view tx).pdcps, List.length_map, List.length_map]
    · rw [(s.shows_view tx).pdcps] at hq
      obtain ⟨u, hu, rfl⟩ := List.mem_map.mp hq
      exact h.unstored u hu tx
  · intro h
    refine ⟨fun tx => (h tx).rest, fun u hu tx => (h tx).unstored _ ?_⟩
    rw [(s.shows_view tx).pdcps]
    exact List.mem_map_of_mem hu

omit [LinearOrder K] [Zero K] [PacketHandler H Env In] in
private theorem Shows.sound (h : s.Shows tx g) (hg : g.Sound) : (s.view tx).Sound := by
  have hues : (s.view tx).ueList = g.ueList := (s.shows_view tx).ues.trans h.ues.symm
  have hpdcps : (s.view tx).pdcps = g.pdcps := (s.shows_view tx).pdcps.trans h.pdcps.symm
  have hblocks : (s.view tx).rbGrid = g.rbGrid := h.grid.blocks.symm
  refine ⟨fun t f => ?_, by rw [hpdcps, hues, hg.layers], by rw [hpdcps]; exact hg.unstored⟩
  rw [hblocks]
  exact hg.rest t f

/-- A step of one grid leaves the other side alone. -/
private theorem view_other (hstep : s.gridStep fuel tx = some s') {tx' : Direction}
    (hne : tx ≠ tx') : s'.view tx' = s.view tx' :=
  view_of_side ((gridCalls_rest hstep).2 tx' hne)

/-- **A grid over shared UEs is the grid of its direction.**  Whatever the state of the cell, a
step of one of its grids that returns is the step of that grid alone, with the channel as the
UEs have it, and it leaves the other grid and the other side of every UE as they were. -/
theorem gridStep_refines (s : Cell K H Env In) (fuel : ℕ) (tx : Direction) (s' : Cell K H Env In)
    (hstep : s.gridStep fuel tx = some s') :
    (∃ g, (s.view tx).step fuel (s.gridInput tx) = some g ∧ s'.Shows tx g) ∧
      ∀ tx', tx ≠ tx' → s'.side tx' = s.side tx' :=
  ⟨(s.shows_view tx).gridStep hstep, (gridCalls_rest hstep).2⟩

/-- The downlink of a cell that has taken a step sends the packet that came. -/
theorem gridStep_refines_small : ∃ s s' : Cell ℚ SimulatedPacketHandler Empty ℚ,
    smallCell.exec roughMath 5 [1 / 1000] = some s ∧ s.gridStep 5 .dl = some s' ∧
      s'.gridDl.lastStepMetrics.effectiveBits = 300 ∧
      (∃ g, (s.view .dl).step 5 (s.gridInput .dl) = some g ∧ s'.Shows .dl g) ∧
      s'.side .ul = s.side .ul := by
  have hview : ((smallCell.exec roughMath 5 [1 / 1000]).bind fun s =>
      (s.gridStep 5 .dl).map fun s' => s'.gridDl.lastStepMetrics.effectiveBits) = some 300 := by
    decide +kernel
  obtain ⟨s, hrun, hstep⟩ := Option.bind_eq_some_iff.mp hview
  obtain ⟨s', hstep, heff⟩ := Option.map_eq_some_iff.mp hstep
  obtain ⟨hgrid, hother⟩ := gridStep_refines s 5 .dl s' hstep
  exact ⟨s, s', hrun, hstep, heff, hgrid, hother .ul (by decide)⟩

/-- **A step of a grid of the cell** is one of the grid it shows, the cell stays sound, and the
other side is as before. -/
theorem Sound.gridStep (h : s.Sound) (hstep : s.gridStep fuel tx = some s') :
    s'.Sound ∧ (∀ tx', tx ≠ tx' → s'.view tx' = s.view tx') ∧
      ∃ x g, (s.view tx).step fuel x = some g ∧ s'.Shows tx g := by
  obtain ⟨g, hg, hshows⟩ := (s.shows_view tx).gridStep hstep
  have hother : ∀ tx', tx ≠ tx' → s'.view tx' = s.view tx' := fun _ hne => view_other hstep hne
  refine ⟨sound_iff.mpr fun tx' => ?_, hother, _, g, hg, hshows⟩
  by_cases hne : tx = tx'
  · exact hne ▸ hshows.sound ((sound_iff.mp h tx).step hg).1
  · rw [hother tx' hne]
    exact sound_iff.mp h tx'

omit [LinearOrder K] [Zero K] in
/-- **The UEs** leave the grids as they are and store no block. -/
theorem Sound.uesStep (h : s.Sound) {t : ℚ} (hstep : (s.addCurrentT t).uesStep M fuel = some s') :
    s'.Sound ∧ ∀ tx, s'.grid tx = s.grid tx := by
  obtain ⟨hlength, hgrid⟩ := uesStep_rest hstep
  have hgrid' : ∀ tx, s'.grid tx = s.grid tx := fun tx => by rw [hgrid tx]; cases tx <;> rfl
  refine ⟨⟨fun tx t f => ?_, ?_⟩, hgrid'⟩
  · have hblocks : (s'.view tx).rbGrid = (s.view tx).rbGrid := congrArg CellGrid.rbGrid (hgrid' tx)
    rw [hblocks]
    exact h.rest tx t f
  · refine serves_ueStep.inv (I := PdcpLayer.Unstored) (fun q e q' hq he => ?_) hstep hlength ?_
    · exact PdcpLayer.apply_rule (K := fun _ s => s.Unstored) PdcpLayer.unstored_rules hq he
    · intro u hu tx
      obtain ⟨v, hv, rfl⟩ := List.mem_map.mp hu
      cases tx
      · exact h.unstored v hv .dl
      · exact h.unstored v hv .ul

end Emulation.Cell

/-! ### What is sent, and when -/

namespace PdcpLayer

/-- `step` pushes nothing. -/
private theorem pushed_stepRules (before : List HarqPkt) :
    StepRules fun _ (q : PdcpLayer (Observed H)) => q.packetH.pushed = before where
  toCleanupRules := .of_packetH (J := fun h : Observed H => h.pushed = before) fun h x b hh => by
    show (Observed.call _ (.drop b)).pushed = before
    rw [Observed.pushed_call, HandlerCall.pushed, List.append_nil]
    exact hh
  offer {q p h} hq hpop := by
    have hcalls : h.pushed = before := by
      rw [Observed.pushed, (Observed.popIngressPkt_some hpop).2]
      exact hq
    rcases offer_cases { q with packetH := h } p with ⟨-, hoffer⟩ | ⟨-, hoffer⟩
    · rw [hoffer]
      exact hcalls
    · rw [hoffer]
      show (h.call (.dropIngressPkt p)).pushed = before
      rw [Observed.pushed_call, HandlerCall.pushed, List.append_nil]
      exact hcalls

/-- **Only a grant sends.** -/
theorem sentBits_apply {fuel : ℕ} {q q' : PdcpLayer (Observed H)} {e : Event Env In}
    (he : ¬Emulation.IsGrant e) (h : q.apply fuel e = some q') : q'.sentBits = q.sentBits := by
  have hpushed : q'.packetH.pushed = q.packetH.pushed := by
    cases e with
    | env e =>
        obtain rfl := Option.some.inj h
        rfl
    | step t i =>
        obtain rfl := Option.some.inj h
        exact step_rule (pushed_stepRules q.packetH.pushed) rfl
    | handlePkt bits mcs sinr distance => exact absurd trivial he
    | release =>
        obtain rfl := Option.some.inj h
        show (q.packetH.call .release).pushed = _
        rw [Observed.pushed_call, HandlerCall.pushed, List.append_nil]
  rw [sentBits, sentBits, hpushed]

end PdcpLayer

namespace Emulation

namespace Cell

variable {M : LogMath} {fuel : ℕ} {s s' : Cell K (Observed H) Env In} {tx : Direction}

/-- **A step of a grid of the cell reports what it did.** -/
private theorem Sound.gridStep_reports (h : s.Sound) (hstep : s.gridStep fuel tx = some s') :
    (s.view tx).Reports (s'.view tx) := by
  obtain ⟨-, -, x, g, hg, hshows⟩ := h.gridStep hstep
  have hreports := (sound_iff.mp h tx).step_reports hg
  have hmetrics : (s'.view tx).lastStepMetrics = g.lastStepMetrics := hshows.grid.metrics.symm
  have hsent : (s'.view tx).sentBits = g.sentBits := by
    rw [MacGrid.sentBits, MacGrid.sentBits, (s'.shows_view tx).pdcps, hshows.pdcps]
  obtain ⟨h₁, h₂, h₃, h₄, h₅, h₆, h₇⟩ := hreports
  rw [← hmetrics] at h₁ h₂ h₃ h₄ h₅ h₆ h₇
  exact ⟨h₁, h₂, h₃, h₄, h₅, h₆, by rw [hsent]; exact h₇⟩

omit [LinearOrder K] [Zero K] in
/-- The UEs send nothing on their own. -/
private theorem sentBits_uesStep {t : ℚ} (h : (s.addCurrentT t).uesStep M fuel = some s') :
    (s'.view tx).sentBits = (s.view tx).sentBits := by
  have hreach := serves_ueStep.reaches h (uesStep_rest h).1 tx
  have hclock : ((s.addCurrentT t).ueList.map fun u => u.pdcp tx)
      = s.ueList.map fun u => u.pdcp tx := by
    rw [addCurrentT, List.map_map]
    cases tx <;> rfl
  rw [hclock] at hreach
  rw [MacGrid.sentBits, MacGrid.sentBits, (s'.shows_view tx).pdcps, (s.shows_view tx).pdcps]
  refine congrArg List.sum (List.ext_getElem (by simpa using hreach.length_eq.symm)
    fun i hi hi' => ?_)
  rw [List.length_map] at hi hi'
  have hlayer := (hreach.get hi' hi).inv (I := fun q => q.sentBits = PdcpLayer.sentBits _)
    (fun q e q' he hq hstep => (PdcpLayer.sentBits_apply he hstep).trans hq) rfl
  simpa only [List.get_eq_getElem, List.getElem_map] using hlayer

/-- **A step of the cell reports what it did**, for both directions, and leaves it sound. -/
theorem Sound.step (h : s.Sound) {t : ℚ} (hstep : s.step M fuel t = some s') :
    s'.Sound ∧ ∀ tx, (s.view tx).Reports (s'.view tx) := by
  obtain ⟨s₂, hmac, hues⟩ := Option.bind_eq_some_iff.mp hstep
  obtain ⟨s₁, hdl, hul⟩ := Option.bind_eq_some_iff.mp hmac
  obtain ⟨hsound₁, hother₁, -⟩ := h.gridStep hdl
  obtain ⟨hsound₂, hother₂, -⟩ := hsound₁.gridStep hul
  obtain ⟨hsound, hgrid⟩ := hsound₂.uesStep hues
  have hgrids : ∀ tx, (s.view tx).Reports (s₂.view tx) := by
    intro tx
    cases tx with
    | dl =>
        rw [hother₂ .dl (by decide)]
        exact h.gridStep_reports hdl
    | ul =>
        rw [← hother₁ .ul (by decide)]
        exact hsound₁.gridStep_reports hul
  refine ⟨hsound, fun tx => ?_⟩
  have hmetrics : (s'.view tx).lastStepMetrics = (s₂.view tx).lastStepMetrics :=
    congrArg CellGrid.lastStepMetrics (hgrid tx)
  obtain ⟨h₁, h₂, h₃, h₄, h₅, h₆, h₇⟩ := hgrids tx
  rw [← hmetrics] at h₁ h₂ h₃ h₄ h₅ h₆ h₇
  exact ⟨h₁, h₂, h₃, h₄, h₅, h₆, by rw [sentBits_uesStep hues]; exact h₇⟩

omit [LinearOrder K] [Zero K] [PacketHandler H Env In] in
/-- A new cell. -/
theorem sound_new {s : Cell K H Env In} (hblocks : ∀ tx, (s.grid tx).rbGrid = fun _ f => { f := f })
    (hlayers : ∀ u ∈ s.ueList, ∀ tx, (u.pdcp tx).harqBuffer.harqBuffer = []) : s.Sound := by
  refine ⟨fun tx t f => ?_, hlayers⟩
  have hb : (s.view tx).rbGrid = fun _ f => { f := f } := hblocks tx
  rw [hb]
  exact ⟨rfl, rfl⟩

end Cell

namespace Emulator

variable {W V : Type} [DecidableEq W] [DecidableEq V] [Fintype W] [Fintype V]

/-- **The grids report what the UEs send.**  In every step of every run of the simulator, with
threads or without and however they are scheduled, the metrics of each grid are consistent, and
the effective bits are what the UEs pushed to their release sides in that step. -/
theorem threads_report_sent (M : LogMath) (fuel : ℕ) (cell : Cell K (Observed H) Env In)
    (threading multithreading : Bool) (macIndex ueIndex : ℤ) (xs : List (ℚ × Schedule W V))
    (x : ℚ × Schedule W V) (e e' : Emulator K (Observed H) Env In W V)
    (hblocks : ∀ tx, (cell.grid tx).rbGrid = fun _ f => { f := f })
    (hlayers : ∀ u ∈ cell.ueList, ∀ tx, (u.pdcp tx).harqBuffer.harqBuffer = [])
    (hrun : (make cell threading multithreading macIndex ueIndex).exec M fuel xs = some e)
    (hstep : e.step M fuel x = some e') :
    ∀ tx, (e.cell.view tx).Reports (e'.cell.view tx) := by
  obtain ⟨hcell, hready⟩ := (ready_make cell threading multithreading macIndex ueIndex).exec hrun
  have hsound : e.cell.Sound :=
    Runs.runAll_inv' (fun s t s' (h : s.Sound) ht => (h.step ht).1) (Cell.sound_new hblocks hlayers)
      hcell
  exact (hsound.step (hready.step hstep).1).2

/-- In a third step the `SIM_UE` sends what it has in the downlink. -/
theorem threads_report_sent_mixed :
    ∃ e e', (make (mixedCell PdcpLayer.observe) true true 0 0).exec roughMath 5 mixedRun = some e ∧
      e.step roughMath 5 (3 / 1000, ⟨turns 11, turns 12⟩) = some e' ∧
      e'.cell.gridDl.lastStepMetrics.effectiveBits = 600 ∧
      ∀ tx, (e.cell.view tx).Reports (e'.cell.view tx) := by
  have hview : ((make (mixedCell PdcpLayer.observe) true true 0 0).exec roughMath 5 mixedRun).bind
      (fun e => (e.step roughMath 5 (3 / 1000, ⟨turns 11, turns 12⟩)).map fun e' =>
        e'.cell.gridDl.lastStepMetrics.effectiveBits) = some 600 := by decide +kernel
  obtain ⟨e, hrun, hstep⟩ := Option.bind_eq_some_iff.mp hview
  obtain ⟨e', hstep, heff⟩ := Option.map_eq_some_iff.mp hstep
  refine ⟨e, e', hrun, hstep, heff, threads_report_sent roughMath 5 (mixedCell PdcpLayer.observe)
    true true 0 0 mixedRun _ e e' ?_ ?_ hrun hstep⟩
  · intro tx
    cases tx <;> rfl
  · intro u hu tx
    rcases List.mem_pair.mp hu with rfl | rfl
    · cases tx <;> rfl
    · cases tx <;> rfl

end Emulator

end Emulation

end NetworkEmulator
