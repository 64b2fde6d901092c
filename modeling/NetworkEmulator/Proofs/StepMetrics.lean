/-
The metrics of a step of the grid.

A block is given to at most one UE, the best of those that have data, and `ue::handle_pkt`
answers with no more bits than the block grants.  So the sums and the counts of a step stay
in proportion, whatever the UEs did before.  `Counting` says so of the blocks visited so far.
-/
import NetworkEmulator.Model.MacGrid
import NetworkEmulator.Proofs.Grants
import NetworkEmulator.Proofs.Scheduling

namespace NetworkEmulator

open scoped Numerals

/-! ### One block -/

namespace Rb

variable {K : Type} [Neg K] [One K]

theorem checkUeAssignment_iff (b : Rb ℚ K) :
    b.checkUeAssignment.1 = true ↔ b.maxMetric.assigned = true ∧ b.maxMetric.hasData = true := by
  rw [checkUeAssignment]
  by_cases hassigned : b.maxMetric.assigned = true
  · by_cases hdata : b.maxMetric.hasData = true
    · simp [hassigned, hdata]
    · simp [hassigned, hdata]
  · simp [hassigned]

/-- What a scheduled block notes. -/
theorem handlePacket_scheduled {b : Rb ℚ K} (h : b.checkUeAssignment.1 = true) (syms : ℕ)
    (effTp : ℚ) :
    (b.handlePacket syms fun _ _ => effTp).lastScheduled = true ∧
      (b.handlePacket syms fun _ _ => effTp).lastUeIndexV = b.maxMetric.index ∧
      (b.handlePacket syms fun _ _ => effTp).lastScheduledBitsV = b.maxMetric.tp * syms ∧
      (b.handlePacket syms fun _ _ => effTp).lastEffectiveBitsV = effTp := by
  obtain ⟨hassigned, hdata⟩ := b.checkUeAssignment_iff.mp h
  simp [handlePacket, checkUeAssignment, hassigned, hdata]

/-- A block that is not assigned is not scheduled. -/
theorem handlePacket_unscheduled {b : Rb ℚ K} (h : ¬b.checkUeAssignment.1 = true) (syms : ℕ)
    (effTp : ℚ) : (b.handlePacket syms fun _ _ => effTp).lastScheduled = false := by
  rw [checkUeAssignment_iff, not_and] at h
  by_cases hassigned : b.maxMetric.assigned = true
  · simp [handlePacket, checkUeAssignment, hassigned, h hassigned]
  · simp [handlePacket, checkUeAssignment, hassigned]

end Rb

/-- A candidate has the rate of its UE, and asking for it leaves the rates alone. -/
theorem PhyMetrics.getScheduleCandidate_rate {K : Type} [Zero K] [One K] (u : PhyMetrics ℚ K)
    (f nUes ueIndex : ℕ) (hasPkts : Bool) :
    (u.getScheduleCandidate f nUes ueIndex hasPkts).1.bitsPerSymbol = u.getTp f ∧
      (u.getScheduleCandidate f nUes ueIndex hasPkts).2.tpV = u.tpV := by
  unfold getScheduleCandidate getMetric
  by_cases hrr : u.metricH.isRr = true
  · rw [if_pos hrr]
    exact ⟨rfl, rfl⟩
  · rw [if_neg hrr]
    exact ⟨rfl, rfl⟩

namespace RbGrid

variable {K : Type} [LinearOrder K] [Zero K] [Neg K] [One K] (g : RbGrid ℚ K) (t f syms : ℕ)
  (hasPkts : ℕ → Bool) (handlePkt : ℤ → ℚ → ℚ)

theorem visit_rbGrid : (g.visit t f syms hasPkts handlePkt).rbGrid t f =
    ((g.rbGrid t f).estimateParams syms g.ueList hasPkts).1.handlePacket syms handlePkt := by
  simp only [visit, Function.update_self]

/-- A block asks the UEs for their rates and leaves these alone. -/
theorem visit_rates : (g.visit t f syms hasPkts handlePkt).ueList.map PhyMetrics.tpV =
    g.ueList.map PhyMetrics.tpV := by
  show ((g.rbGrid t f).estimateParams syms g.ueList hasPkts).2.map PhyMetrics.tpV = _
  rw [Rb.estimateParams]
  by_cases hsyms : 0 < syms
  · rw [if_pos hsyms]
    refine List.ext_getElem? fun i => ?_
    simp only [Rb.candidates, List.getElem?_map, List.getElem?_mapIdx, Option.map_map]
    cases g.ueList[i]? with
    | none => rfl
    | some u =>
        simp only [Option.map_some, Function.comp_apply]
        exact congrArg some (u.getScheduleCandidate_rate _ _ i (hasPkts i)).2
  · rw [if_neg hsyms]

variable {g t f syms hasPkts}

/-- **A block is assigned to a UE with a rate**, and only when it has symbols. -/
theorem AtRest.assigned (h : g.AtRest)
    (hassigned : ((g.rbGrid t f).estimateParams syms g.ueList hasPkts).1.checkUeAssignment.1
      = true) :
    ∃ (i : ℕ) (u : PhyMetrics ℚ K), g.ueList[i]? = some u ∧ 0 < syms ∧ 0 < u.getTp f ∧
      ((g.rbGrid t f).estimateParams syms g.ueList hasPkts).1.maxMetric.index = i ∧
      ((g.rbGrid t f).estimateParams syms g.ueList hasPkts).1.maxMetric.tp = u.getTp f := by
  obtain ⟨hassigned, -⟩ := (Rb.checkUeAssignment_iff _).mp hassigned
  by_cases hsyms : 0 < syms
  · have hbest := h.estimateParams_best t f hasPkts hsyms
    cases hc : best (g.candidatesOf f hasPkts) with
    | none =>
        rw [hbest, hc] at hassigned
        cases hassigned
    | some c =>
        obtain ⟨hmem, hdata⟩ := best_mem hc
        obtain ⟨p, hp, rfl⟩ := List.mem_map.mp hmem
        obtain ⟨i, hi, rfl⟩ := List.mem_mapIdx.mp hp
        have hpos := Rb.rate_pos hmem hdata
        have hrate := (g.ueList[i].getScheduleCandidate_rate f g.ueList.length i (hasPkts i)).1
        refine ⟨i, g.ueList[i], List.getElem?_eq_getElem hi, hsyms, ?_, ?_, ?_⟩
        · rw [← hrate]
          exact hpos
        · rw [hbest, hc]
          rfl
        · rw [hbest, hc]
          exact hrate
  · rw [Rb.estimateParams, if_neg hsyms, (h t f).2] at hassigned
    cases hassigned

end RbGrid

namespace MacGrid

variable {K H Env In : Type} [LinearOrder K] [Zero K] [Neg K] [One K] [PacketHandler H Env In]

/-- Between two blocks, every block is reset and no PDCP layer has a block stored. -/
structure Sound (g : MacGrid K H) : Prop where
  rest : g.toRbGrid.AtRest
  layers : g.pdcps.length = g.ueList.length
  unstored : ∀ u ∈ g.pdcps, u.Unstored

/-- What a block leaves alone. -/
structure SameStep (g g' : MacGrid K H) : Prop where
  nTimeRbg : g'.nTimeRbg = g.nTimeRbg
  nFreqRbg : g'.nFreqRbg = g.nFreqRbg
  rates : g'.ueList.map PhyMetrics.tpV = g.ueList.map PhyMetrics.tpV
  metrics : g'.lastStepMetrics = g.lastStepMetrics

/-- A block that went to no UE. -/
structure Idle (g g' : MacGrid K H) (t f : ℕ) : Prop where
  unscheduled : (g'.rbGrid t f).lastScheduled = false
  pdcps : g'.pdcps = g.pdcps
  served : g'.lastServed = g.lastServed

/-- A block that went to UE `i`. -/
structure Given (g g' : MacGrid K H) (t f i : ℕ) : Prop where
  lt : i < g.ueList.length
  scheduled : (g'.rbGrid t f).lastScheduled = true
  index : (g'.rbGrid t f).lastUeIndexV = i
  nonneg : 0 ≤ (g'.rbGrid t f).lastEffectiveBitsV
  fits : (g'.rbGrid t f).lastEffectiveBitsV ≤ (g'.rbGrid t f).lastScheduledBitsV
  pdcps : ∃ u, g'.pdcps = g.pdcps.set i u
  served : g'.lastServed = g.lastServed ++ [⟨t, f, i⟩]

/-- **A block goes to no UE or to one**, and that UE sends no more than the block grants. -/
theorem Sound.serve {g g' : MacGrid K H} (h : g.Sound) {fuel : ℕ} {x : GridInput} {t f : ℕ}
    (hserve : g.serve fuel x t f = some g') :
    g'.Sound ∧ SameStep g g' ∧ (Idle g g' t f ∨ ∃ i, Given g g' t f i) := by
  have hues (handlePkt : ℤ → ℚ → ℚ) : g.ueList.length
      = (g.toRbGrid.visit t f (x.syms t) g.hasPackets handlePkt).ueList.length := by
    have hlen := congrArg List.length
      (g.toRbGrid.visit_rates t f (x.syms t) g.hasPackets handlePkt)
    rw [List.length_map, List.length_map] at hlen
    exact hlen.symm
  simp only [MacGrid.serve] at hserve
  by_cases hassigned : ((g.rbGrid t f).estimateParams (x.syms t) g.ueList
      g.hasPackets).1.checkUeAssignment.1 = true
  · rw [if_pos hassigned] at hserve
    obtain ⟨⟨effTp, pdcps⟩, hhandle, rfl⟩ := Option.map_eq_some_iff.mp hserve
    obtain ⟨i, u, hu, hsyms, hrate, hindex, htp⟩ := h.rest.assigned hassigned
    have hlt : i < g.ueList.length := (List.getElem?_eq_some_iff.mp hu).1
    have hi : i < g.pdcps.length := h.layers ▸ hlt
    simp only [MacGrid.handlePkt, hindex, htp, Int.toNat_natCast,
      List.getElem?_eq_getElem hi] at hhandle
    obtain ⟨⟨sent, u'⟩, hrun, heq⟩ := Option.map_eq_some_iff.mp hhandle
    obtain ⟨rfl, rfl⟩ := Prod.mk.inj heq
    have hgrant : 0 ≤ u.getTp f * (x.syms t : ℚ) := by positivity
    obtain ⟨hunstored, hnonneg, hfits⟩ :=
      (h.unstored _ (List.getElem_mem hi)).handlePkt hgrant hrun
    obtain ⟨hscheduled, hnoted, hbits, heff⟩ := Rb.handlePacket_scheduled hassigned (x.syms t) sent
    rw [hindex] at hnoted
    rw [htp] at hbits
    refine ⟨⟨h.rest.visit, ?_, fun w hw => ?_⟩, ⟨rfl, rfl, RbGrid.visit_rates .., rfl⟩,
      Or.inr ⟨i, ?_⟩⟩
    · rw [List.length_set, h.layers, hues]
    · rcases List.mem_or_eq_of_mem_set hw with hw | rfl
      · exact h.unstored w hw
      · exact hunstored
    · refine ⟨hlt, ?_, ?_, ?_, ?_, ⟨u', rfl⟩, ?_⟩
      · rw [RbGrid.visit_rbGrid, hscheduled]
      · rw [RbGrid.visit_rbGrid, hnoted]
      · rw [RbGrid.visit_rbGrid, heff]
        exact hnonneg
      · rw [RbGrid.visit_rbGrid, heff, hbits]
        exact hfits
      · rw [hindex]
  · rw [if_neg hassigned] at hserve
    obtain rfl := Option.some.inj hserve
    refine ⟨⟨h.rest.visit, ?_, h.unstored⟩, ⟨rfl, rfl, RbGrid.visit_rates .., rfl⟩,
      Or.inl ⟨?_, rfl, rfl⟩⟩
    · rw [h.layers, hues]
    · rw [RbGrid.visit_rbGrid]
      exact Rb.handlePacket_unscheduled hassigned (x.syms t) 0

/-! ### The counts of a step -/

omit [LinearOrder K] [Zero K] [PacketHandler H Env In] in
/-- A scheduled block is counted, and its UE the first time. -/
theorem count_scheduled (g : MacGrid K H) (flags : List Bool) {b : Rb ℚ K}
    (h : b.lastScheduled = true) :
    ∃ n flags', n ≤ 1 ∧ flags'.length = flags.length ∧
      flags'.count true = flags.count true + n ∧
      g.count flags b = ({ g with lastStepMetrics := { g.lastStepMetrics with
        scheduledRbgCount := g.lastStepMetrics.scheduledRbgCount + 1
        scheduledUeCount := g.lastStepMetrics.scheduledUeCount + n
        scheduledBits := g.lastStepMetrics.scheduledBits + b.lastScheduledBitsV
        effectiveBits := g.lastStepMetrics.effectiveBits + b.lastEffectiveBitsV } }, flags') := by
  rw [MacGrid.count, if_pos h]
  by_cases hnew : 0 ≤ b.lastUeIndexV ∧ b.lastUeIndexV < flags.length ∧
      flags[b.lastUeIndexV.toNat]? = some false
  · obtain ⟨hlt, hflag⟩ := List.getElem?_eq_some_iff.mp hnew.2.2
    refine ⟨1, flags.set b.lastUeIndexV.toNat true, le_rfl, List.length_set, ?_, if_pos hnew⟩
    rw [List.count_set hlt, hflag]
    rfl
  · exact ⟨0, flags, Nat.zero_le 1, rfl, rfl, if_neg hnew⟩

omit [LinearOrder K] [Zero K] [PacketHandler H Env In] in
theorem count_unscheduled (g : MacGrid K H) (flags : List Bool) {b : Rb ℚ K}
    (h : b.lastScheduled = false) : g.count flags b = (g, flags) := by
  rw [MacGrid.count, if_neg (by simp [h])]

/-- What a step that began with `g₀` has counted when it has visited the blocks `done`. -/
structure Counting (g₀ : MacGrid K H) (done : List (ℕ × ℕ)) (s : MacGrid K H × List Bool) :
    Prop where
  sound : s.1.Sound
  nTimeRbg : s.1.nTimeRbg = g₀.nTimeRbg
  nFreqRbg : s.1.nFreqRbg = g₀.nFreqRbg
  rates : s.1.ueList.map PhyMetrics.tpV = g₀.ueList.map PhyMetrics.tpV
  flags : s.2.length = g₀.ueList.length
  served : (s.1.lastServed.map fun e => (e.t, e.f)).Sublist done
  scheduled : s.1.lastStepMetrics.scheduledRbgCount = s.1.lastServed.length
  ues : s.1.lastStepMetrics.scheduledUeCount = s.2.count true
  uesLe : s.1.lastStepMetrics.scheduledUeCount ≤ s.1.lastStepMetrics.scheduledRbgCount
  nonneg : 0 ≤ s.1.lastStepMetrics.effectiveBits
  effective : s.1.lastStepMetrics.effectiveBits ≤ s.1.lastStepMetrics.scheduledBits
  utilization : s.1.lastStepMetrics.utilizationRatio = 0
  efficiency : s.1.lastStepMetrics.schedulingEfficiencyRatio = 0
  untouched : ∀ i : ℕ, (∀ e ∈ s.1.lastServed, e.ueIndex ≠ i) → s.1.pdcps[i]? = g₀.pdcps[i]?

omit [LinearOrder K] [Zero K] in
theorem Sound.counting {g : MacGrid K H} (h : g.Sound) :
    Counting g [] (g.startStep, List.replicate g.ueList.length false) where
  sound := ⟨h.rest, h.layers, h.unstored⟩
  nTimeRbg := rfl
  nFreqRbg := rfl
  rates := rfl
  flags := List.length_replicate
  served := .refl _
  scheduled := rfl
  ues := by
    rw [List.count_replicate]
    rfl
  uesLe := le_rfl
  nonneg := le_rfl
  effective := le_rfl
  utilization := rfl
  efficiency := rfl
  untouched _ _ := rfl

section Visit

variable {g₀ g g' : MacGrid K H} {done : List (ℕ × ℕ)} {flags : List Bool} {t f i : ℕ}

omit [LinearOrder K] [Zero K] in
/-- One more block that went to no UE. -/
private theorem Counting.idle (h : Counting g₀ done (g, flags)) (hsound : g'.Sound)
    (hsame : SameStep g g') (hidle : Idle g g' t f) :
    Counting g₀ (done ++ [(t, f)]) (g'.count flags (g'.rbGrid t f)) := by
  rw [count_unscheduled g' flags hidle.unscheduled]
  refine ⟨hsound, hsame.nTimeRbg.trans h.nTimeRbg, hsame.nFreqRbg.trans h.nFreqRbg,
    hsame.rates.trans h.rates, h.flags, ?_, ?_, ?_, ?_, ?_, ?_, ?_, ?_, ?_⟩
  · rw [hidle.served]
    exact h.served.trans (List.sublist_append_left ..)
  · rw [hsame.metrics, hidle.served]
    exact h.scheduled
  · rw [hsame.metrics]
    exact h.ues
  · rw [hsame.metrics]
    exact h.uesLe
  · rw [hsame.metrics]
    exact h.nonneg
  · rw [hsame.metrics]
    exact h.effective
  · rw [hsame.metrics]
    exact h.utilization
  · rw [hsame.metrics]
    exact h.efficiency
  · intro i hi
    rw [hidle.pdcps]
    exact h.untouched i (hidle.served ▸ hi)

omit [LinearOrder K] [Zero K] in
/-- One more block that went to a UE. -/
private theorem Counting.given (h : Counting g₀ done (g, flags)) (hsound : g'.Sound)
    (hsame : SameStep g g') (hgiven : Given g g' t f i) :
    Counting g₀ (done ++ [(t, f)]) (g'.count flags (g'.rbGrid t f)) := by
  obtain ⟨n, flags', hn, hlen, hflags, hcount⟩ := count_scheduled g' flags hgiven.scheduled
  have hmetrics : g'.lastStepMetrics = g.lastStepMetrics := hsame.metrics
  have hues : g.lastStepMetrics.scheduledUeCount = flags.count true := h.ues
  have hle : g.lastStepMetrics.scheduledUeCount ≤ g.lastStepMetrics.scheduledRbgCount := h.uesLe
  have hnonneg : 0 ≤ g.lastStepMetrics.effectiveBits := h.nonneg
  have heffective : g.lastStepMetrics.effectiveBits ≤ g.lastStepMetrics.scheduledBits :=
    h.effective
  have hbits := hgiven.nonneg
  have hfits := hgiven.fits
  rw [hcount]
  refine ⟨⟨hsound.rest, hsound.layers, hsound.unstored⟩, hsame.nTimeRbg.trans h.nTimeRbg,
    hsame.nFreqRbg.trans h.nFreqRbg, hsame.rates.trans h.rates, hlen.trans h.flags, ?_, ?_, ?_,
    ?_, ?_, ?_, ?_, ?_, ?_⟩
  · show (g'.lastServed.map fun e => (e.t, e.f)).Sublist _
    rw [hgiven.served, List.map_append]
    exact h.served.append (.refl _)
  · show g'.lastStepMetrics.scheduledRbgCount + 1 = g'.lastServed.length
    rw [hmetrics, hgiven.served, List.length_append]
    exact congrArg (· + 1) h.scheduled
  · show g'.lastStepMetrics.scheduledUeCount + n = flags'.count true
    rw [hmetrics, hflags, hues]
  · show g'.lastStepMetrics.scheduledUeCount + n ≤ g'.lastStepMetrics.scheduledRbgCount + 1
    rw [hmetrics]
    omega
  · show 0 ≤ g'.lastStepMetrics.effectiveBits + (g'.rbGrid t f).lastEffectiveBitsV
    rw [hmetrics]
    linarith
  · show g'.lastStepMetrics.effectiveBits + (g'.rbGrid t f).lastEffectiveBitsV
      ≤ g'.lastStepMetrics.scheduledBits + (g'.rbGrid t f).lastScheduledBitsV
    rw [hmetrics]
    linarith
  · show g'.lastStepMetrics.utilizationRatio = 0
    rw [hmetrics]
    exact h.utilization
  · show g'.lastStepMetrics.schedulingEfficiencyRatio = 0
    rw [hmetrics]
    exact h.efficiency
  · intro j hj
    show g'.pdcps[j]? = g₀.pdcps[j]?
    obtain ⟨u, hset⟩ := hgiven.pdcps
    simp only [hgiven.served, List.forall_mem_append, List.forall_mem_singleton] at hj
    have hne : i ≠ j := fun heq => hj.2 (congrArg Nat.cast heq)
    rw [hset, List.getElem?_set_ne hne]
    exact h.untouched j hj.1

end Visit

/-- **One more block.** -/
theorem Counting.visit {g₀ : MacGrid K H} {done : List (ℕ × ℕ)} {s s' : MacGrid K H × List Bool}
    (h : Counting g₀ done s) {fuel : ℕ} {x : GridInput} {rbg : ℕ × ℕ}
    (hvisit : visitRbg fuel x s rbg = some s') : Counting g₀ (done ++ [rbg]) s' := by
  obtain ⟨g', hserve, rfl⟩ := Option.map_eq_some_iff.mp hvisit
  obtain ⟨hsound, hsame, hidle | ⟨i, hgiven⟩⟩ := h.sound.serve hserve
  · exact h.idle hsound hsame hidle
  · exact h.given hsound hsame hgiven

/-- All the blocks of a step. -/
theorem Counting.visitAll {g₀ : MacGrid K H} {fuel : ℕ} {x : GridInput} (rbgs : List (ℕ × ℕ)) :
    ∀ {done : List (ℕ × ℕ)} {s s' : MacGrid K H × List Bool}, Counting g₀ done s →
      Runs.runAll (visitRbg fuel x) s rbgs = some s' → Counting g₀ (done ++ rbgs) s' := by
  induction rbgs with
  | nil =>
      intro done s s' h hrun
      obtain rfl := Option.some.inj hrun
      rwa [List.append_nil]
  | cons rbg rest ih =>
      intro done s s' h hrun
      obtain ⟨s₁, hvisit, hrest⟩ := Runs.runAll_cons.mp hrun
      have hall := ih (h.visit hvisit) hrest
      rwa [List.append_assoc] at hall

/-- The metrics of a step from `g` to `g'`, and what it did to the UEs, are consistent. -/
structure Consistent (g g' : MacGrid K H) : Prop where
  effective : g'.lastStepMetrics.effectiveBits ≤ g'.lastStepMetrics.scheduledBits
  efficiency : 0 ≤ g'.lastStepMetrics.schedulingEfficiencyRatio ∧
    g'.lastStepMetrics.schedulingEfficiencyRatio ≤ 1
  utilization : 0 ≤ g'.lastStepMetrics.utilizationRatio ∧ g'.lastStepMetrics.utilizationRatio ≤ 1
  rbgs : g'.lastStepMetrics.scheduledRbgCount + g'.lastStepMetrics.emptyRbgCount = g.rbgs.length
  scheduled : g'.lastStepMetrics.scheduledRbgCount = g'.lastServed.length
  served : (g'.lastServed.map fun e => (e.t, e.f)).Sublist g.rbgs
  distinct : (g'.lastServed.map fun e => (e.t, e.f)).Nodup
  untouched : ∀ i : ℕ, (∀ e ∈ g'.lastServed, e.ueIndex ≠ i) → g'.pdcps[i]? = g.pdcps[i]?
  uesOfList : g'.lastStepMetrics.scheduledUeCount ≤ g.ueList.length
  uesOfRbgs : g'.lastStepMetrics.scheduledUeCount ≤ g'.lastStepMetrics.scheduledRbgCount

omit [LinearOrder K] [Zero K] [PacketHandler H Env In] in
theorem rbgs_nodup (g : MacGrid K H) : g.rbgs.Nodup := List.nodup_range.product List.nodup_range

omit [LinearOrder K] [Zero K] [PacketHandler H Env In] in
theorem length_rbgs (g : MacGrid K H) : g.rbgs.length = g.nFreqRbg * g.nTimeRbg := by
  simp [rbgs, Nat.mul_comm]

omit [LinearOrder K] [Zero K] in
/-- What a step has counted at its end is consistent. -/
theorem Counting.consistent {g : MacGrid K H} {s : MacGrid K H × List Bool}
    (h : Counting g g.rbgs s) : Consistent g s.1.finishStep := by
  have hlen : s.1.lastStepMetrics.scheduledRbgCount ≤ g.nFreqRbg * g.nTimeRbg := by
    rw [h.scheduled, ← length_rbgs, ← s.1.lastServed.length_map (fun e => (e.t, e.f))]
    exact h.served.length_le
  refine ⟨h.effective, ?_, ?_, ?_, h.scheduled, h.served, h.served.nodup g.rbgs_nodup,
    h.untouched, ?_, h.uesLe⟩
  · show 0 ≤ (if 0 < s.1.lastStepMetrics.scheduledBits then _ else _) ∧
      (if 0 < s.1.lastStepMetrics.scheduledBits then _ else _) ≤ (1 : ℚ)
    by_cases hbits : 0 < s.1.lastStepMetrics.scheduledBits
    · rw [if_pos hbits]
      exact ⟨div_nonneg h.nonneg hbits.le, (div_le_one hbits).mpr h.effective⟩
    · rw [if_neg hbits, h.efficiency]
      exact ⟨le_rfl, zero_le_one⟩
  · show 0 ≤ (if 0 < s.1.nFreqRbg * s.1.nTimeRbg then _ else _) ∧
      (if 0 < s.1.nFreqRbg * s.1.nTimeRbg then _ else _) ≤ (1 : ℚ)
    rw [h.nFreqRbg, h.nTimeRbg]
    by_cases hany : 0 < g.nFreqRbg * g.nTimeRbg
    · have hpos : (0 : ℚ) < g.nFreqRbg * g.nTimeRbg := by exact_mod_cast hany
      rw [if_pos hany]
      refine ⟨div_nonneg (Nat.cast_nonneg _) hpos.le, (div_le_one hpos).mpr ?_⟩
      exact_mod_cast hlen
    · rw [if_neg hany, h.utilization]
      exact ⟨le_rfl, zero_le_one⟩
  · show (s.1.lastStepMetrics.scheduledRbgCount : ℤ)
      + (s.1.nFreqRbg * s.1.nTimeRbg - s.1.lastStepMetrics.scheduledRbgCount) = g.rbgs.length
    rw [h.nFreqRbg, h.nTimeRbg, length_rbgs, Nat.cast_mul]
    ring
  · show s.1.lastStepMetrics.scheduledUeCount ≤ g.ueList.length
    rw [h.ues, ← h.flags]
    exact List.count_le_length

/-- **A step is consistent**, and leaves the grid sound. -/
theorem Sound.step {g g' : MacGrid K H} (h : g.Sound) {fuel : ℕ} {x : GridInput}
    (hstep : g.step fuel x = some g') : g'.Sound ∧ Consistent g g' := by
  obtain ⟨s, hrun, rfl⟩ := Option.map_eq_some_iff.mp hstep
  have hcounting := h.counting.visitAll g.rbgs hrun
  exact ⟨⟨hcounting.sound.rest, hcounting.sound.layers, hcounting.sound.unstored⟩,
    hcounting.consistent⟩

/-! ### Grants of at least one bit -/

/-- Every block that a UE with a rate might get grants it a bit. -/
def GrantsBits (g : MacGrid K H) (x : GridInput) : Prop :=
  ∀ tpV ∈ g.ueList.map PhyMetrics.tpV, ∀ t f, 0 < x.syms t → 0 < tpV f → 1 ≤ tpV f * x.syms t

/-- A block of a sound grid is visited, given enough passes. -/
theorem Sound.serve_returns {g : MacGrid K H} (h : g.Sound) {x : GridInput}
    (hgrants : g.GrantsBits x) (t f : ℕ) :
    ∃ g' fuel₀, ∀ fuel ≥ fuel₀, g.serve fuel x t f = some g' := by
  simp only [MacGrid.serve]
  by_cases hassigned : ((g.rbGrid t f).estimateParams (x.syms t) g.ueList
      g.hasPackets).1.checkUeAssignment.1 = true
  · simp only [if_pos hassigned]
    obtain ⟨i, u, hu, hsyms, hrate, hindex, htp⟩ := h.rest.assigned hassigned
    have hi : i < g.pdcps.length := h.layers ▸ (List.getElem?_eq_some_iff.mp hu).1
    have hgrant : 1 ≤ u.getTp f * (x.syms t : ℚ) :=
      hgrants _ (List.mem_map_of_mem (List.mem_of_getElem? hu)) t f hsyms hrate
    obtain ⟨r, fuel₀, hr⟩ := g.pdcps[i].handlePkt_returns hgrant
      (x.mcs i ((g.rbGrid t f).estimateParams (x.syms t) g.ueList g.hasPackets).1.f)
      (x.sinr i ((g.rbGrid t f).estimateParams (x.syms t) g.ueList g.hasPackets).1.f)
      (x.distance i)
    have hhandle : ∀ fuel ≥ fuel₀, g.handlePkt fuel x
        ((g.rbGrid t f).estimateParams (x.syms t) g.ueList g.hasPackets).1 (x.syms t)
        = some (r.1, g.pdcps.set i r.2) := fun fuel hfuel => by
      simp only [MacGrid.handlePkt, hindex, htp, Int.toNat_natCast, List.getElem?_eq_getElem hi,
        hr fuel hfuel, Option.map_some]
    exact ⟨_, fuel₀, fun fuel hfuel => congrArg (Option.map _) (hhandle fuel hfuel)⟩
  · simp only [if_neg hassigned]
    exact ⟨_, 0, fun _ _ => rfl⟩

/-- So are all of them. -/
theorem Counting.visitAll_returns {g₀ : MacGrid K H} {x : GridInput} (hgrants : g₀.GrantsBits x)
    (rbgs : List (ℕ × ℕ)) : ∀ {done : List (ℕ × ℕ)} {s : MacGrid K H × List Bool},
      Counting g₀ done s →
        ∃ s' fuel₀, ∀ fuel ≥ fuel₀, Runs.runAll (visitRbg fuel x) s rbgs = some s' := by
  induction rbgs with
  | nil => intro done s _; exact ⟨s, 0, fun _ _ => rfl⟩
  | cons rbg rest ih =>
      intro done s h
      have hgrants' : s.1.GrantsBits x := by
        rw [GrantsBits, h.rates]
        exact hgrants
      obtain ⟨g', fuel₁, hserve⟩ := h.sound.serve_returns hgrants' rbg.1 rbg.2
      have hvisit : ∀ fuel ≥ fuel₁, visitRbg fuel x s rbg
          = some (g'.count s.2 (g'.rbGrid rbg.1 rbg.2)) := fun fuel hfuel => by
        rw [visitRbg, hserve fuel hfuel]
        rfl
      obtain ⟨s', fuel₂, hrest⟩ := ih (h.visit (hvisit fuel₁ le_rfl))
      refine ⟨s', max fuel₁ fuel₂, fun fuel hfuel => ?_⟩
      exact Runs.runAll_cons.mpr ⟨_, hvisit fuel (le_of_max_le_left hfuel),
        hrest fuel (le_of_max_le_right hfuel)⟩

/-- **A step returns** when its grants are of at least one bit. -/
theorem Sound.step_returns {g : MacGrid K H} (h : g.Sound) {x : GridInput}
    (hgrants : g.GrantsBits x) : ∃ g' fuel₀, ∀ fuel ≥ fuel₀, g.step fuel x = some g' := by
  obtain ⟨s, fuel₀, hrun⟩ := h.counting.visitAll_returns hgrants g.rbgs
  refine ⟨s.1.finishStep, fuel₀, fun fuel hfuel => ?_⟩
  rw [MacGrid.step, hrun fuel hfuel]
  rfl

/-! ### Runs -/

omit [LinearOrder K] [Zero K] in
/-- A new grid. -/
theorem create_sound (nTimeRbg nFreqRbg : ℕ) (maxCapacityBits : ℚ) (ues : List (UeConfig K H)) :
    (create nTimeRbg nFreqRbg maxCapacityBits ues).Sound := by
  refine ⟨fun _ _ => ⟨rfl, rfl⟩, ?_, fun u hu => ?_⟩
  · show (ues.map UeConfig.pdcp).length = (ues.map UeConfig.phy).length
    rw [List.length_map, List.length_map]
  · obtain ⟨c, -, rfl⟩ := List.mem_map.mp hu
    rfl

/-- **Whatever happens to it, a grid stays sound.** -/
theorem Sound.apply {g g' : MacGrid K H} (h : g.Sound) {fuel : ℕ} {e : GridEvent Env In}
    (happly : g.apply fuel e = some g') : g'.Sound := by
  cases e with
  | step x => exact (h.step happly).1
  | channel x =>
      obtain rfl := Option.some.inj happly
      refine ⟨h.rest, ?_, h.unstored⟩
      show g.pdcps.length = (g.ueList.mapIdx _).length
      rw [List.length_mapIdx, h.layers]
  | pdcp i e =>
      simp only [MacGrid.apply] at happly
      split at happly
      · cases happly
      · rename_i u hu
        obtain ⟨u', hrun, rfl⟩ := Option.map_eq_some_iff.mp happly
        have hunstored := h.unstored u (List.mem_of_getElem? hu)
        refine ⟨h.rest, ?_, fun w hw => ?_⟩
        · rw [List.length_set, h.layers]
        · rcases List.mem_or_eq_of_mem_set hw with hw | rfl
          · exact h.unstored w hw
          · exact PdcpLayer.apply_rule (K := fun _ s => s.Unstored) PdcpLayer.unstored_rules
              hunstored hrun

theorem Sound.exec {g g' : MacGrid K H} (h : g.Sound) {fuel : ℕ} {es : List (GridEvent Env In)}
    (hrun : g.exec fuel es = some g') : g'.Sound :=
  Runs.runAll_inv' (fun _ _ _ hs he => hs.apply he) h hrun

/-- **A grant is never exceeded, and the metrics of a step are consistent.**  In every state
that a grid and its UEs reach, each UE honours every grant of at least one bit, every step
that returns is consistent, and a step whose grants are of at least one bit returns. -/
theorem grants_never_exceeded (nTimeRbg nFreqRbg : ℕ) (maxCapacityBits : ℚ)
    (ues : List (UeConfig K (Observed H))) (fuel : ℕ) (es : List (GridEvent Env In))
    (g : MacGrid K (Observed H))
    (hrun : (create nTimeRbg nFreqRbg maxCapacityBits ues).exec fuel es = some g) :
    (∀ u ∈ g.pdcps, ∀ grant mcs sinr distance, 1 ≤ grant → u.Honours grant mcs sinr distance) ∧
    ∀ x : GridInput, (∀ fuel g', g.step fuel x = some g' → Consistent g g') ∧
      (g.GrantsBits x → ∃ g' fuel₀, ∀ fuel ≥ fuel₀, g.step fuel x = some g') := by
  have hsound := (create_sound nTimeRbg nFreqRbg maxCapacityBits ues).exec hrun
  refine ⟨fun u hu grant mcs sinr distance hgrant => ?_, fun x => ⟨fun fuel g' hstep => ?_, ?_⟩⟩
  · exact (hsound.unstored u hu).honours hgrant mcs sinr distance
  · exact (hsound.step hstep).2
  · exact hsound.step_returns

/-- A UE that reports one rate. -/
def plainUe (id : ℤ) (rate : ℚ) (handler : SimulatedPacketHandler ⊕ CapturedPacketHandler) :
    UeConfig ℚ (Observed (SimulatedPacketHandler ⊕ CapturedPacketHandler)) where
  phy :=
    { id := id, nRbs := 3, tpV := fun _ => rate, metricV := fun _ => rate
      metricH := { metricT := .maxTp, metricF := fun m _ _ => m.currentTp } }
  packetHandlerC := { l4sC := { enabled := true } }
  packetH := { handler := handler }

/-- Three RBGs, a UE of virtual traffic and one whose packets are captured. -/
def mixedGrid : MacGrid ℚ (Observed (SimulatedPacketHandler ⊕ CapturedPacketHandler)) :=
  create 1 3 5000
    [plainUe 0 90 (.inl (.make 12000 {} 0 {})), plainUe 1 120 (.inr (.make true {} 0 {}))]

/-- A packet of 2000 bits is captured, and 700 bits are generated. -/
def mixedEvents : List (GridEvent (Empty ⊕ NfqPacketMetadata) (ℚ × Draws)) :=
  [.pdcp 1 (.env (.inr ⟨250, 1, .ect1, []⟩)),
    .pdcp 1 (.step (1 / 1000) (0, fun _ => 1 / 1000)),
    .pdcp 0 (.step (1 / 1000) (700, fun _ => 1 / 1000))]

/-- The captured packet takes two blocks, and the generated one the third. -/
theorem grants_never_exceeded_mixed : ∃ g g',
    mixedGrid.exec 5 mixedEvents = some g ∧
      g.step 5 ⟨fun _ => 14, fun _ _ => 5, fun _ _ => 0, fun _ => 0⟩ = some g' ∧
      g'.lastStepMetrics.scheduledBits = 4620 ∧ g'.lastStepMetrics.effectiveBits = 2700 ∧
      g'.lastServed = [⟨0, 0, 1⟩, ⟨0, 1, 1⟩, ⟨0, 2, 0⟩] ∧ Consistent g g' ∧
      ∀ u ∈ g.pdcps, u.Honours 1260 5 0 0 := by
  have hview : ((mixedGrid.exec 5 mixedEvents).bind fun g =>
      g.step 5 ⟨fun _ => 14, fun _ _ => 5, fun _ _ => 0, fun _ => 0⟩).map (fun g' =>
        (g'.lastStepMetrics.scheduledBits, g'.lastStepMetrics.effectiveBits, g'.lastServed))
      = some (4620, 2700, [⟨0, 0, 1⟩, ⟨0, 1, 1⟩, ⟨0, 2, 0⟩]) := by decide +kernel
  obtain ⟨g', hboth, heq⟩ := Option.map_eq_some_iff.mp hview
  obtain ⟨g, hrun, hstep⟩ := Option.bind_eq_some_iff.mp hboth
  obtain ⟨hscheduled, heffective, hserved⟩ : _ ∧ _ ∧ _ := by simpa only [Prod.mk.injEq] using heq
  obtain ⟨hgrants, hsteps⟩ := grants_never_exceeded 1 3 5000 _ 5 mixedEvents g hrun
  exact ⟨g, g', hrun, hstep, hscheduled, heffective, hserved, (hsteps _).1 5 g' hstep,
    fun u hu => hgrants u hu 1260 5 0 0 (by norm_num)⟩

end MacGrid

end NetworkEmulator
