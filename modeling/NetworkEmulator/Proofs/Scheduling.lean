/-
What a resource block does with its candidates.

The loop of `estimate_params` is a scan for the last of the greatest metrics among the UEs
with data, from the bound that `reset` leaves.  `handle_packet` resets the block on every way
out, so each block starts its scan anew; and a UE with data has a rate, so a block that is
assigned is scheduled.
-/
import NetworkEmulator.Library.LastMax
import NetworkEmulator.Model.ResourceBlock

namespace NetworkEmulator

open scoped Numerals

/-! ### The best candidate -/

section Candidates

variable {R K : Type} [LinearOrder K] [Neg K] [One K]

/-- The candidates with data. -/
def servable (cs : List (ScheduleCandidate R K)) : List (ScheduleCandidate R K) :=
  cs.filter ScheduleCandidate.hasData

/-- The candidate the scan ends with. -/
def best (cs : List (ScheduleCandidate R K)) : Option (ScheduleCandidate R K) :=
  LastMax.scan ScheduleCandidate.metric (-1) (servable cs)

/-- The handler that has found a candidate, or none. -/
def MaxMetricHandler.ofBest [Zero R] : Option (ScheduleCandidate R K) → MaxMetricHandler R K
  | none => {}
  | some c => ({} : MaxMetricHandler R K).assign c.bitsPerSymbol c.metric c.ueIndex c.ueId

theorem best_mem {cs : List (ScheduleCandidate R K)} {c : ScheduleCandidate R K}
    (h : best cs = some c) : c ∈ cs ∧ c.hasData = true :=
  List.mem_filter.mp (LastMax.scan_mem h)

theorem best_concat (cs : List (ScheduleCandidate R K)) (c : ScheduleCandidate R K) :
    best (cs ++ [c]) =
      if c.hasData ∧ (best cs).elim (-1) ScheduleCandidate.metric ≤ c.metric then some c
      else best cs := by
  by_cases hdata : c.hasData = true
  · simp [best, servable, List.filter_append, hdata, LastMax.scan_concat]
  · simp [best, servable, List.filter_append, hdata]

end Candidates

namespace Rb

section

variable {R K : Type} [Field R] [LinearOrder K] [Neg K] [One K]

/-- **The loop over the candidates is a scan for the last of the greatest.** -/
theorem foldl_consider (cs : List (ScheduleCandidate R K)) :
    cs.foldl consider ({} : MaxMetricHandler R K) = .ofBest (best cs) := by
  induction cs using List.reverseRecOn with
  | nil => rfl
  | append_singleton cs c ih =>
      have hvalue : (MaxMetricHandler.ofBest (best cs)).value =
          (best cs).elim (-1) ScheduleCandidate.metric := by
        cases best cs <;> rfl
      rw [List.foldl_concat, ih, best_concat, consider, MaxMetricHandler.evaluate, hvalue]
      by_cases htake : c.hasData ∧ (best cs).elim (-1) ScheduleCandidate.metric ≤ c.metric
      · rw [if_pos htake, if_pos (by simpa using htake)]
        rfl
      · rw [if_neg htake, if_neg (by simpa using htake)]

end

section

variable {R K : Type} [Field R] [LinearOrder R] [Neg K] [One K]

/-- Every way out of `handle_packet` leaves the block reset. -/
theorem handlePacket_reset (b : Rb R K) (syms : ℕ) (handlePkt : ℤ → R → R) :
    (b.handlePacket syms handlePkt).maxMetric = {} ∧
      (b.handlePacket syms handlePkt).f = b.f := by
  rw [handlePacket, checkUeAssignment]
  by_cases hassigned : b.maxMetric.assigned
  · by_cases hdata : b.maxMetric.hasData <;> simp [hassigned, hdata, MaxMetricHandler.reset]
  · simp [hassigned, MaxMetricHandler.reset]

/-- A block that is assigned to a UE with a rate is scheduled for it. -/
theorem handlePacket_some {b : Rb R K} {c : ScheduleCandidate R K} (syms : ℕ)
    (handlePkt : ℤ → R → R) (hb : b.maxMetric = .ofBest (some c))
    (hrate : 0 < c.bitsPerSymbol) :
    (b.handlePacket syms handlePkt).lastScheduled = true ∧
      (b.handlePacket syms handlePkt).lastUeIndexV = c.ueIndex := by
  have hdata : b.maxMetric.hasData = true := by
    rw [hb]
    exact decide_eq_true hrate
  have hassigned : b.maxMetric.assigned = true := by rw [hb]; rfl
  have hindex : b.maxMetric.index = c.ueIndex := by rw [hb]; rfl
  simp [handlePacket, checkUeAssignment, hassigned, hindex, hdata]

/-- A block that is not assigned is not scheduled. -/
theorem handlePacket_none {b : Rb R K} (syms : ℕ) (handlePkt : ℤ → R → R)
    (hb : b.maxMetric = {}) : (b.handlePacket syms handlePkt).lastScheduled = false := by
  have hassigned : b.maxMetric.assigned = false := by rw [hb]
  simp [handlePacket, checkUeAssignment, hassigned]

end

/-- A candidate with data has a rate. -/
theorem rate_pos {R K : Type} [Field R] [LinearOrder R] [Zero K] [One K] {f : ℕ}
    {ues : List (PhyMetrics R K)} {hasPkts : ℕ → Bool}
    {c : ScheduleCandidate R K} (hc : c ∈ (candidates f ues hasPkts).map Prod.fst)
    (hdata : c.hasData = true) : 0 < c.bitsPerSymbol := by
  obtain ⟨p, hp, rfl⟩ := List.mem_map.mp hc
  obtain ⟨i, hi, rfl⟩ := List.mem_mapIdx.mp hp
  rw [PhyMetrics.getScheduleCandidate, Bool.and_eq_true] at hdata
  exact of_decide_eq_true hdata.2


end Rb

/-! ### The channel state of a UE -/

namespace PhyMetrics

variable {R K : Type} [Field R] [LinearOrder R]

/-- What the metric of a frequency is made of when the CQI is renewed. -/
def infoAt (p : PhyMetrics R K) (x : ChannelInput R) (f : ℕ) : MetricInfo R where
  reqTime := x.oldestT
  avrgTp := x.avgTp * 1000000 / 1000
  currentTp := x.tp f
  currentDelay := x.currentT - x.oldestT
  delta := p.metricI.delta
  delayT := p.metricI.delayT

/-- A UE as the loop over the first `k` frequencies leaves it. -/
structure Renewed (p : PhyMetrics R K) (x : ChannelInput R) (k : ℕ) (q : PhyMetrics R K) :
    Prop where
  id : q.id = p.id
  nRbs : q.nRbs = p.nRbs
  metricH : q.metricH = p.metricH
  currentT : q.currentT = x.currentT
  info : ∀ c, { q.metricI with currentTp := c } = { p.infoAt x 0 with currentTp := c }
  tpV : ∀ f, q.tpV f = if f < k then x.tp f else p.tpV f
  metricV : p.metricH.isRr = false → ∀ f, q.metricV f =
    if f < k then p.metricH.getMetric (p.infoAt x f) x.currentT f else p.metricV f

theorem Renewed.next {p q : PhyMetrics R K} {x : ChannelInput R} {k : ℕ}
    (h : Renewed p x k q) : Renewed p x (k + 1) ((q.estimateTp k (x.tp k)).estimateMetric k) := by
  have htp : (q.estimateTp k (x.tp k)).tpV k = x.tp k := Function.update_self ..
  have hinfo : { q.metricI with currentTp := x.tp k } = p.infoAt x k := h.info (x.tp k)
  have hrates : ∀ f, (q.estimateTp k (x.tp k)).tpV f =
      if f < k + 1 then x.tp f else p.tpV f := by
    intro f
    by_cases hf : f = k
    · rw [hf, htp, if_pos k.lt_succ_self]
    · have hkeep : (q.estimateTp k (x.tp k)).tpV f = q.tpV f := Function.update_of_ne hf ..
      rw [hkeep, h.tpV]
      by_cases hlt : f < k
      · rw [if_pos hlt, if_pos (by omega)]
      · rw [if_neg hlt, if_neg (by omega)]
  by_cases hrr : p.metricH.isRr = true
  · have hq : (q.estimateTp k (x.tp k)).metricH.isRr = true := by
      rw [← hrr, ← h.metricH]
      rfl
    rw [estimateMetric, htp, if_pos hq]
    exact ⟨h.id, h.nRbs, h.metricH, h.currentT, h.info, hrates, fun hplain =>
      absurd hrr (by simp [hplain])⟩
  · have hq : (q.estimateTp k (x.tp k)).metricH.isRr ≠ true := by
      rw [← h.metricH] at hrr
      exact hrr
    rw [estimateMetric, htp, if_neg hq]
    refine ⟨h.id, h.nRbs, h.metricH, h.currentT, h.info, hrates, fun hplain f => ?_⟩
    by_cases hf : f = k
    · subst hf
      rw [if_pos f.lt_succ_self]
      refine (Function.update_self ..).trans ?_
      rw [← hinfo, ← h.currentT, ← h.metricH]
      rfl
    · refine (Function.update_of_ne hf ..).trans ((h.metricV hplain f).trans ?_)
      by_cases hlt : f < k
      · rw [if_pos hlt, if_pos (by omega)]
      · rw [if_neg hlt, if_neg (by omega)]

/-- **The CQI renews the rates and the metrics of all frequencies.** -/
theorem renewed_of_updateCqi (p : PhyMetrics R K) {x : ChannelInput R}
    (hcqi : x.updateCqi = true) : Renewed p x p.nRbs (p.estimateChannelState x) := by
  rw [estimateChannelState, if_pos hcqi]
  have hstart : Renewed p x 0 ({ p with currentT := x.currentT }.prepareMetrics x.oldestT
      x.avgTp) :=
    ⟨rfl, rfl, rfl, rfl, fun _ => rfl, fun _ => rfl, fun _ _ => rfl⟩
  have hloop : ∀ k, Renewed p x k ((List.range k).foldl
      (fun p f => (p.estimateTp f (x.tp f)).estimateMetric f)
      ({ p with currentT := x.currentT }.prepareMetrics x.oldestT x.avgTp)) := by
    intro k
    induction k with
    | zero => exact hstart
    | succ k ih =>
        rw [List.range_succ, List.foldl_concat]
        exact ih.next
  exact hloop p.nRbs

/-- Without a new CQI they stay. -/
theorem estimateChannelState_of_not (p : PhyMetrics R K) {x : ChannelInput R}
    (hcqi : x.updateCqi = false) :
    (p.estimateChannelState x).tpV = p.tpV ∧ (p.estimateChannelState x).metricV = p.metricV := by
  rw [estimateChannelState, if_neg (by simp [hcqi])]
  exact ⟨rfl, rfl⟩

/-- What the channel never changes. -/
theorem estimateChannelState_frame (p : PhyMetrics R K) (x : ChannelInput R) :
    (p.estimateChannelState x).id = p.id ∧ (p.estimateChannelState x).nRbs = p.nRbs ∧
      (p.estimateChannelState x).metricH = p.metricH ∧
      (p.estimateChannelState x).metricI.delta = p.metricI.delta ∧
      (p.estimateChannelState x).metricI.delayT = p.metricI.delayT := by
  by_cases hcqi : x.updateCqi = true
  · have h := p.renewed_of_updateCqi hcqi
    have hinfo := h.info 0
    exact ⟨h.id, h.nRbs, h.metricH, (congrArg MetricInfo.delta hinfo :),
      (congrArg MetricInfo.delayT hinfo :)⟩
  · rw [estimateChannelState, if_neg hcqi]
    exact ⟨rfl, rfl, rfl, rfl, rfl⟩

end PhyMetrics

/-! ### A block of the grid -/

namespace RbGrid

variable {R K : Type} [Field R] [LinearOrder R] [LinearOrder K] [Neg K] [One K]

variable {g : RbGrid R K} {t f syms : ℕ} {hasPkts : ℕ → Bool} {handlePkt : ℤ → R → R}

/-- Between two blocks every block of the grid is reset. -/
def AtRest (g : RbGrid R K) : Prop :=
  ∀ t f, (g.rbGrid t f).f = f ∧ (g.rbGrid t f).maxMetric = {}

variable [Zero K]

/-- The candidates of a block. -/
def candidatesOf (g : RbGrid R K) (f : ℕ) (hasPkts : ℕ → Bool) :
    List (ScheduleCandidate R K) := (Rb.candidates f g.ueList hasPkts).map Prod.fst

theorem AtRest.visit (h : g.AtRest) : (g.visit t f syms hasPkts handlePkt).AtRest := by
  intro t' f'
  have hreset := Rb.handlePacket_reset
    ((g.rbGrid t f).estimateParams syms g.ueList hasPkts).1 syms handlePkt
  have hf : ((g.rbGrid t f).estimateParams syms g.ueList hasPkts).1.f = f := by
    rw [Rb.estimateParams]
    by_cases hsyms : 0 < syms
    · rw [if_pos hsyms]
      exact (h t f).1
    · rw [if_neg hsyms]
      exact (h t f).1
  by_cases ht : t' = t
  · subst ht
    by_cases hff : f' = f
    · subst hff
      simp only [RbGrid.visit, Function.update_self]
      exact ⟨hreset.2.trans hf, hreset.1⟩
    · simp only [RbGrid.visit, Function.update_self, Function.update_of_ne hff]
      exact h t' f'
  · simp only [RbGrid.visit, Function.update_of_ne ht]
    exact h t' f'

/-- A block without symbols leaves everything as it is. -/
theorem visit_silent : (g.visit t f 0 hasPkts handlePkt).ueList = g.ueList ∧
    (g.visit t f 0 hasPkts handlePkt).history = g.history := by
  simp [visit, Rb.estimateParams]

theorem AtRest.estimateParams_best (h : g.AtRest) (t f : ℕ) (hasPkts : ℕ → Bool)
    (hsyms : 0 < syms) :
    ((g.rbGrid t f).estimateParams syms g.ueList hasPkts).1.maxMetric =
      .ofBest (best (g.candidatesOf f hasPkts)) := by
  rw [Rb.estimateParams, if_pos hsyms, (h t f).1, (h t f).2]
  exact Rb.foldl_consider _

/-- **A block with symbols goes to the best of its candidates.** -/
theorem AtRest.visit_history (h : g.AtRest) (hsyms : 0 < syms) :
    (g.visit t f syms hasPkts handlePkt).history = g.history ++
      [⟨(g.candidatesOf f hasPkts).map ScheduleCandidate.hasData,
        (best (g.candidatesOf f hasPkts)).map ScheduleCandidate.ueIndex⟩] := by
  have hbest := h.estimateParams_best t f hasPkts hsyms
  have hvisit : (g.visit t f syms hasPkts handlePkt).history = g.history ++
      [⟨(Rb.candidates (g.rbGrid t f).f g.ueList hasPkts).map fun c => c.1.hasData,
        if (((g.rbGrid t f).estimateParams syms g.ueList hasPkts).1.handlePacket syms
            handlePkt).lastScheduled then
          some (((g.rbGrid t f).estimateParams syms g.ueList hasPkts).1.handlePacket syms
            handlePkt).lastUeIndexV
        else none⟩] := if_pos hsyms
  rw [hvisit, (h t f).1]
  cases hc : best (g.candidatesOf f hasPkts) with
  | none =>
      rw [hc] at hbest
      simp [Rb.handlePacket_none syms handlePkt hbest, candidatesOf]
  | some c =>
      rw [hc] at hbest
      obtain ⟨hmem, hdata⟩ := best_mem hc
      obtain ⟨hscheduled, hindex⟩ :=
        Rb.handlePacket_some syms handlePkt hbest (Rb.rate_pos hmem hdata)
      simp [hscheduled, hindex, candidatesOf]

theorem AtRest.visit_ueList (h : g.AtRest) (hsyms : 0 < syms) :
    (g.visit t f syms hasPkts handlePkt).ueList =
      (Rb.candidates f g.ueList hasPkts).map Prod.snd := by
  have hvisit : (g.visit t f syms hasPkts handlePkt).ueList =
      ((g.rbGrid t f).estimateParams syms g.ueList hasPkts).2 := rfl
  rw [hvisit, Rb.estimateParams, if_pos hsyms, (h t f).1]

end RbGrid

end NetworkEmulator
