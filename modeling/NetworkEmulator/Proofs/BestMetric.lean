/-
When a resource block goes to the UE with the greatest metric.

The scan of the candidates starts from the value -1 that `reset` leaves, so a metric below it
is never taken: when the metrics of all UEs with data are below -1 the block stays empty.
`InRange` says in terms of age, rate and throughput when a metric is not.  FIFO, weighted
delay, maximum throughput, round robin and proportional fair are always in range unless an age
is negative; the distance to the delay is not when the age is just above the delay, for then
its inverse is negative.
-/
import NetworkEmulator.Proofs.Scheduling

namespace NetworkEmulator

open scoped Numerals

/-! ### The range of the metrics -/

/-- The age of the oldest packet. -/
def ChannelInput.age (x : ChannelInput ℝ) : ℝ := x.currentT - x.oldestT

/-- The metric of a UE at a frequency is not below -1, in terms of what it is made of. -/
def InRange (c : MetricConfig) (x : ChannelInput ℝ) (f : ℕ) : Prop :=
  match checkMetric c.metricType with
  | .fifo => -1 ≤ c.priority * x.age
  | .bet => ¬(-c.priority < c.beta * (x.avgTp * 1000000 / 1000) + (1 - c.beta) * x.tp f ∧
      c.beta * (x.avgTp * 1000000 / 1000) + (1 - c.beta) * x.tp f < 0)
  | .distDelay => ¬(1 / 10 < x.age ∧ x.age < 1 / 10 + c.priority)
  | .wDelay => -1 ≤ -(Real.log (1 / 1000) / (1 / 10)) * c.priority * x.age
  | .maxTp => True
  | .rr => True
  | .pf => True

/-- What the metric of a UE is made of. -/
noncomputable def ChannelInput.info (x : ChannelInput ℝ) (f : ℕ) : MetricInfo ℝ where
  reqTime := x.oldestT
  avrgTp := x.avgTp * 1000000 / 1000
  currentTp := x.tp f
  currentDelay := x.age

namespace MetricHandler

theorem neg_one_le_coe {x : ℝ} : (-1 : EReal) ≤ (x : EReal) ↔ -1 ≤ x := by
  have hneg : (-1 : EReal) = ((-1 : ℝ) : EReal) := by norm_num
  rw [hneg, EReal.coe_le_coe_iff]

/-- An inverse is below -1 exactly for the numbers between minus the priority and zero. -/
theorem neg_one_le_recip {p d : ℝ} (hp : 0 < p) :
    (-1 : EReal) ≤ p * recip d ↔ ¬(-p < d ∧ d < 0) := by
  rw [recip]
  by_cases hd : d = 0
  · rw [if_pos hd, EReal.coe_mul_top_of_pos hp]
    simp [hd]
  · rw [if_neg hd, ← EReal.coe_mul, neg_one_le_coe, mul_one_div]
    rcases lt_or_gt_of_ne hd with hneg | hpos
    · rw [le_div_iff_of_neg hneg]
      constructor
      · rintro hle ⟨hlt, -⟩
        linarith
      · intro hnot
        by_contra hlt
        exact hnot ⟨by linarith, hneg⟩
    · have hle : -1 ≤ p / d := by
        have hdiv : 0 < p / d := div_pos hp hpos
        linarith
      exact iff_of_true hle fun h => absurd h.2 (not_lt.mpr hpos.le)

/-- **When a metric is not below the bound.** -/
theorem neg_one_le_metric_iff {c : MetricConfig} {x : ChannelInput ℝ} {f : ℕ}
    (hpos : 0 < c.priority) (hrate : 0 < x.tp f) :
    -1 ≤ assignMetric (checkMetric c.metricType) c.priority c.beta (x.info f) x.currentT f ↔
      InRange c x f := by
  have hmaxTp : -1 ≤ c.priority * x.tp f := by
    have hmul : 0 < c.priority * x.tp f := mul_pos hpos hrate
    linarith
  rw [InRange]
  cases checkMetric c.metricType with
  | fifo => exact neg_one_le_coe
  | bet => exact neg_one_le_recip hpos
  | distDelay =>
      refine (neg_one_le_recip hpos).trans (not_congr ?_)
      change -c.priority < 1 / 10 - x.age ∧ 1 / 10 - x.age < 0 ↔ _
      constructor <;> rintro ⟨hlow, hhigh⟩ <;> constructor <;> linarith
  | wDelay => exact neg_one_le_coe
  | maxTp => exact iff_of_true (neg_one_le_coe.mpr hmaxTp) trivial
  | rr => exact iff_of_true (neg_one_le_coe.mpr (by norm_num)) trivial
  | pf =>
      refine iff_of_true ?_ trivial
      have havg : 0 ≤ x.avgTp * 1000000 / 1000 := by
        have hnonneg := x.avgTp_nonneg
        positivity
      change -1 ≤ pf c.priority c.beta (x.info f)
      rw [pf]
      by_cases hzero : (x.info f).avrgTp ≠ 0
      · rw [if_pos hzero, neg_one_le_coe]
        have hdiv : 0 ≤ c.priority * x.tp f / (x.info f).avrgTp ^ c.beta :=
          div_nonneg (mul_pos hpos hrate).le (Real.rpow_nonneg havg _)
        exact le_trans (by norm_num) hdiv
      · rw [if_neg hzero, neg_one_le_coe]
        exact hmaxTp

/-- The metrics that are always in range, when no age is negative. -/
theorem inRange_of_age {c : MetricConfig} {x : ChannelInput ℝ} {f : ℕ} (hpos : 0 < c.priority)
    (hage : 0 ≤ x.age) (hrate : 0 < x.tp f)
    (hbet : checkMetric c.metricType = .bet → 0 ≤ c.beta ∧ c.beta ≤ 1)
    (hdist : checkMetric c.metricType ≠ .distDelay) : InRange c x f := by
  have hlog : Real.log (1 / 1000) ≤ 0 := Real.log_nonpos (by norm_num) (by norm_num)
  rw [InRange]
  cases hmetric : checkMetric c.metricType with
  | fifo =>
      have hmul : 0 ≤ c.priority * x.age := mul_nonneg hpos.le hage
      change -1 ≤ c.priority * x.age
      linarith
  | bet =>
      obtain ⟨hlow, hhigh⟩ := hbet hmetric
      have havg : 0 ≤ x.avgTp * 1000000 / 1000 := by
        have hnonneg := x.avgTp_nonneg
        positivity
      have hsum : 0 ≤ c.beta * (x.avgTp * 1000000 / 1000) + (1 - c.beta) * x.tp f :=
        add_nonneg (mul_nonneg hlow havg) (mul_nonneg (sub_nonneg.mpr hhigh) hrate.le)
      exact fun h => absurd h.2 (not_lt.mpr hsum)
  | distDelay => exact absurd hmetric hdist
  | wDelay =>
      have hfactor : 0 ≤ -(Real.log (1 / 1000) / (1 / 10)) := by linarith
      have hmul := mul_nonneg (mul_nonneg hfactor hpos.le) hage
      change -1 ≤ -(Real.log (1 / 1000) / (1 / 10)) * c.priority * x.age
      linarith
  | maxTp => trivial
  | rr => trivial
  | pf => trivial

end MetricHandler

/-! ### Runs of the grid -/

/-- What happens to a grid: a new channel state of its UEs, or one of its blocks. -/
inductive GridEvent (R : Type) [Zero R] [LE R] where
  | channel (x : ℕ → ChannelInput R)
  | visit (t f syms : ℕ) (hasPkts : ℕ → Bool) (handlePkt : ℤ → R → R)

namespace RbGrid

section Events

variable {R K : Type} [Field R] [LinearOrder R] [LinearOrder K] [Zero K] [Neg K] [One K]

/-- An event. -/
def apply (g : RbGrid R K) : GridEvent R → RbGrid R K
  | .channel x => g.estimateChannelState x
  | .visit t f syms hasPkts handlePkt => g.visit t f syms hasPkts handlePkt

/-- A run, which may end between any two blocks. -/
def run (g : RbGrid R K) (es : List (GridEvent R)) : RbGrid R K := es.foldl apply g

/-- The blocks of a step. -/
def stepEvents (nTimeRbg nFreqRbg : ℕ) (x : StepInput R) : List (GridEvent R) :=
  (List.range nTimeRbg).flatMap fun t => (List.range nFreqRbg).map fun f =>
    .visit t f (x.syms t) (x.hasPkts t f) x.handlePkt

theorem stepEvents_succ (k m : ℕ) (x : StepInput R) :
    stepEvents (k + 1) m x = stepEvents k m x ++ (List.range m).map fun f =>
      .visit k f (x.syms k) (x.hasPkts k f) x.handlePkt := by
  rw [stepEvents, List.range_succ, List.flatMap_append, List.flatMap_singleton, stepEvents]

theorem run_append (g : RbGrid R K) (es es' : List (GridEvent R)) :
    g.run (es ++ es') = (g.run es).run es' := List.foldl_append

theorem run_sizes (g : RbGrid R K) (es : List (GridEvent R)) :
    (g.run es).nTimeRbg = g.nTimeRbg ∧ (g.run es).nFreqRbg = g.nFreqRbg := by
  induction es generalizing g with
  | nil => exact ⟨rfl, rfl⟩
  | cons e es ih =>
      have happly : (g.apply e).nTimeRbg = g.nTimeRbg ∧ (g.apply e).nFreqRbg = g.nFreqRbg := by
        cases e <;> exact ⟨rfl, rfl⟩
      have hrest := ih (g.apply e)
      exact ⟨hrest.1.trans happly.1, hrest.2.trans happly.2⟩

/-- A step is the run of its blocks. -/
theorem step_eq_run (g : RbGrid R K) (x : StepInput R) :
    g.step x = g.run (stepEvents g.nTimeRbg g.nFreqRbg x) := by
  have hslots : ∀ k, (List.range k).foldl (fun g' t => (List.range g'.nFreqRbg).foldl
      (fun g' f => g'.visit t f (x.syms t) (x.hasPkts t f) x.handlePkt) g') g =
      g.run (stepEvents k g.nFreqRbg x) := by
    intro k
    induction k with
    | zero => rfl
    | succ k ih =>
        rw [List.range_succ, List.foldl_concat, ih, (g.run_sizes _).2, stepEvents_succ,
          run_append]
        change _ = List.foldl apply _ (List.map _ _)
        rw [List.foldl_map]
        rfl
  exact hslots g.nTimeRbg

/-- **A run of TTIs is a run of events**, so what holds between any two events holds between
any two blocks of any TTI. -/
theorem exec_eq_run (g : RbGrid R K) (ttis : List (Tti R)) : g.exec ttis = g.run
    (ttis.flatMap fun x => .channel x.channel :: stepEvents g.nTimeRbg g.nFreqRbg x.grid) := by
  induction ttis using List.reverseRecOn with
  | nil => rfl
  | append_singleton ttis x ih =>
      rw [exec, List.foldl_concat]
      rw [exec] at ih
      rw [ih, List.flatMap_append, run_append, List.flatMap_singleton, step_eq_run]
      have hsizes := g.run_sizes
        (ttis.flatMap fun x => .channel x.channel :: stepEvents g.nTimeRbg g.nFreqRbg x.grid)
      change ((g.run _).apply (.channel x.channel)).run
        (stepEvents (g.run _).nTimeRbg (g.run _).nFreqRbg x.grid) = _
      rw [hsizes.1, hsizes.2]
      rfl

end Events

/-! ### What a metric was made of -/

/-- What a UE got when its CQI was last renewed. -/
def lastCqi (i : ℕ) (es : List (GridEvent ℝ)) : Option (ChannelInput ℝ) :=
  (es.filterMap fun
    | .channel x => if (x i).updateCqi then some (x i) else none
    | .visit .. => none).getLast?

/-- A UE as the events so far leave it: its rates and metrics are those of its last CQI. -/
structure Renews (c : MetricConfig) (last : Option (ChannelInput ℝ)) (u : PhyMetrics ℝ EReal) :
    Prop where
  nRbs : u.nRbs = c.nRbs
  metricT : u.metricH.metricT = checkMetric c.metricType
  metricF : u.metricH.metricF =
    MetricHandler.assignMetric (checkMetric c.metricType) c.priority c.beta
  delta : u.metricI.delta = 1 / 1000
  delayT : u.metricI.delayT = 1 / 10
  rates : ∀ f, u.tpV f = last.elim 0 fun x => if f < c.nRbs then x.tp f else 0
  metrics : checkMetric c.metricType ≠ .rr → ∀ f < c.nRbs, ∀ x ∈ last, u.metricV f =
    MetricHandler.assignMetric (checkMetric c.metricType) c.priority c.beta (x.info f)
      x.currentT f

/-- The events leave every UE with what its last CQI gave, and every block reset. -/
structure Known (cs : List MetricConfig) (es : List (GridEvent ℝ)) (g : RbGrid ℝ EReal) :
    Prop where
  size : g.ueList.length = cs.length
  rest : g.AtRest
  ues : ∀ (i : ℕ) (u : PhyMetrics ℝ EReal), g.ueList[i]? = some u →
    ∃ c, cs[i]? = some c ∧ Renews c (lastCqi i es) u

variable {cs : List MetricConfig} {es : List (GridEvent ℝ)} {g : RbGrid ℝ EReal}

theorem lastCqi_visit (i t f syms : ℕ) (hasPkts : ℕ → Bool) (handlePkt : ℤ → ℝ → ℝ) :
    lastCqi i (es ++ [.visit t f syms hasPkts handlePkt]) = lastCqi i es := by
  simp [lastCqi]

theorem lastCqi_channel (i : ℕ) (x : ℕ → ChannelInput ℝ) : lastCqi i (es ++ [.channel x]) =
    if (x i).updateCqi then some (x i) else lastCqi i es := by
  by_cases hcqi : (x i).updateCqi = true <;> simp [lastCqi, hcqi]

/-- **The channel state gives a UE what its CQI is made of.** -/
theorem Renews.channel {c : MetricConfig} {last : Option (ChannelInput ℝ)}
    {u : PhyMetrics ℝ EReal} (h : Renews c last u) (x : ChannelInput ℝ) :
    Renews c (if x.updateCqi then some x else last) (u.estimateChannelState x) := by
  obtain ⟨-, hnRbs, hhandler, hdelta, hdelayT⟩ := u.estimateChannelState_frame x
  by_cases hcqi : x.updateCqi = true
  · have hrenewed := u.renewed_of_updateCqi hcqi
    rw [if_pos hcqi]
    refine ⟨hnRbs.trans h.nRbs, by rw [hhandler, h.metricT], by rw [hhandler, h.metricF],
      hdelta.trans h.delta, hdelayT.trans h.delayT, fun f => ?_, fun hrr f hf y hy => ?_⟩
    · rw [hrenewed.tpV, h.nRbs, Option.elim_some]
      by_cases hf : f < c.nRbs
      · rw [if_pos hf, if_pos hf]
      · rw [if_neg hf, if_neg hf, h.rates]
        cases last with
        | none => rfl
        | some y => exact if_neg hf
    · obtain rfl := Option.some.inj hy
      have hplain : u.metricH.isRr = false := by
        rw [MetricHandler.isRr, h.metricT]
        exact decide_eq_false hrr
      have hinfo : u.infoAt x f = x.info f := by
        rw [PhyMetrics.infoAt, h.delta, h.delayT]
        rfl
      rw [hrenewed.metricV hplain, h.nRbs, if_pos hf, MetricHandler.getMetric, h.metricF, hinfo]
  · obtain ⟨htp, hmetric⟩ := u.estimateChannelState_of_not (Bool.not_eq_true _ ▸ hcqi)
    rw [if_neg hcqi]
    refine ⟨hnRbs.trans h.nRbs, by rw [hhandler, h.metricT], by rw [hhandler, h.metricF],
      hdelta.trans h.delta, hdelayT.trans h.delayT, ?_, ?_⟩
    · rw [htp]
      exact h.rates
    · rw [hmetric]
      exact h.metrics

/-- A UE that is asked for its candidate moves its pointer at most. -/
theorem Renews.candidate {c : MetricConfig} {last : Option (ChannelInput ℝ)}
    {u : PhyMetrics ℝ EReal} (h : Renews c last u) (f n i : ℕ) (pkts : Bool) :
    Renews c last (u.getScheduleCandidate f n i pkts).2 := by
  by_cases hrr : u.metricH.isRr = true
  · have hmoved : (u.getScheduleCandidate f n i pkts).2 =
        { u with metricH := (u.metricH.getRrMetric (K := EReal) f u.id n).2 } := by
      simp [PhyMetrics.getScheduleCandidate, PhyMetrics.getMetric, hrr]
    have hframe : (u.metricH.getRrMetric (K := EReal) f u.id n).2.metricT = u.metricH.metricT ∧
        (u.metricH.getRrMetric (K := EReal) f u.id n).2.metricF = u.metricH.metricF := by
      rw [MetricHandler.getRrMetric]
      by_cases hmoves : u.metricH.prevF ≠ f
      · rw [if_pos hmoves]
        exact ⟨rfl, rfl⟩
      · rw [if_neg hmoves]
        exact ⟨rfl, rfl⟩
    rw [hmoved]
    exact ⟨h.nRbs, hframe.1.trans h.metricT, hframe.2.trans h.metricF, h.delta, h.delayT,
      h.rates, h.metrics⟩
  · have hsame : (u.getScheduleCandidate f n i pkts).2 = u := by
      simp [PhyMetrics.getScheduleCandidate, PhyMetrics.getMetric, hrr]
    rw [hsame]
    exact h

theorem known_create (nTimeRbg nFreqRbg : ℕ) (cs : List MetricConfig) :
    Known cs [] (create nTimeRbg nFreqRbg cs) where
  size := List.length_mapIdx
  rest _ _ := ⟨rfl, rfl⟩
  ues i u hu := by
    rw [create, List.getElem?_mapIdx] at hu
    obtain ⟨c, hc, rfl⟩ := Option.map_eq_some_iff.mp hu
    exact ⟨c, hc, rfl, rfl, rfl, rfl, rfl, fun _ => rfl, fun _ _ _ x hx => by cases hx⟩

/-- **Every event keeps what is known.** -/
theorem Known.apply (h : Known cs es g) (e : GridEvent ℝ) : Known cs (es ++ [e]) (g.apply e) := by
  cases e with
  | channel x =>
      refine ⟨?_, h.rest, fun i u hu => ?_⟩
      · exact List.length_mapIdx.trans h.size
      · change (List.mapIdx _ g.ueList)[i]? = some u at hu
        rw [List.getElem?_mapIdx] at hu
        obtain ⟨v, hv, rfl⟩ := Option.map_eq_some_iff.mp hu
        obtain ⟨c, hc, hrenews⟩ := h.ues i v hv
        rw [lastCqi_channel]
        exact ⟨c, hc, hrenews.channel (x i)⟩
  | visit t f syms hasPkts handlePkt =>
      refine ⟨?_, h.rest.visit, fun i u hu => ?_⟩
      · by_cases hsyms : 0 < syms
        · change (g.visit t f syms hasPkts handlePkt).ueList.length = _
          rw [h.rest.visit_ueList hsyms, List.length_map, Rb.candidates, List.length_mapIdx, h.size]
        · obtain rfl : syms = 0 := by omega
          exact (congrArg List.length visit_silent.1).trans h.size
      · rw [lastCqi_visit]
        change (g.visit t f syms hasPkts handlePkt).ueList[i]? = some u at hu
        by_cases hsyms : 0 < syms
        · rw [h.rest.visit_ueList hsyms, List.getElem?_map, Rb.candidates, List.getElem?_mapIdx,
            Option.map_map] at hu
          obtain ⟨v, hv, rfl⟩ := Option.map_eq_some_iff.mp hu
          obtain ⟨c, hc, hrenews⟩ := h.ues i v hv
          exact ⟨c, hc, hrenews.candidate f g.ueList.length i (hasPkts i)⟩
        · obtain rfl : syms = 0 := by omega
          rw [visit_silent.1] at hu
          exact h.ues i u hu

theorem known_run (nTimeRbg nFreqRbg : ℕ) (cs : List MetricConfig) (es : List (GridEvent ℝ)) :
    Known cs es ((create nTimeRbg nFreqRbg cs).run es) := by
  induction es using List.reverseRecOn with
  | nil => exact known_create nTimeRbg nFreqRbg cs
  | append_singleton es e ih =>
      rw [run_append]
      exact ih.apply e

/-! ### When the greatest metric is served -/

/-- The block goes to a UE with data whose metric is the greatest among the UEs with data, and
is scheduled for it. -/
def ServesBest (g : RbGrid ℝ EReal) (t f syms : ℕ) (hasPkts : ℕ → Bool)
    (handlePkt : ℤ → ℝ → ℝ) : Prop :=
  let b := ((g.rbGrid t f).estimateParams syms g.ueList hasPkts).1
  ∃ c ∈ g.candidatesOf f hasPkts, c.hasData = true ∧
    (∀ d ∈ g.candidatesOf f hasPkts, d.hasData = true → d.metric ≤ c.metric) ∧
    b.maxMetric = .ofBest (some c) ∧
    (b.handlePacket syms handlePkt).lastScheduled = true ∧
    (b.handlePacket syms handlePkt).lastUeIndexV = c.ueIndex

variable {t f syms : ℕ} {hasPkts : ℕ → Bool} {handlePkt : ℤ → ℝ → ℝ}

/-- The best is served when one of the UEs with data is not below the bound. -/
theorem servesBest_iff_exists (h : g.AtRest) (hsyms : 0 < syms) :
    g.ServesBest t f syms hasPkts handlePkt ↔
      ∃ c ∈ g.candidatesOf f hasPkts, c.hasData = true ∧ -1 ≤ c.metric := by
  have hbest := h.estimateParams_best t f hasPkts hsyms
  have hfound : (∃ c, best (g.candidatesOf f hasPkts) = some c) ↔
      ∃ c ∈ g.candidatesOf f hasPkts, c.hasData = true ∧ -1 ≤ c.metric := by
    rw [best, LastMax.exists_scan_iff]
    simp only [servable, List.mem_filter, and_assoc]
  rw [← hfound]
  constructor
  · rintro ⟨c, -, -, -, hassigned, -⟩
    rw [hbest] at hassigned
    cases hc : best (g.candidatesOf f hasPkts) with
    | none =>
        rw [hc] at hassigned
        exact absurd (congrArg MaxMetricHandler.assigned hassigned) Bool.false_ne_true
    | some d => exact ⟨d, rfl⟩
  · rintro ⟨c, hc⟩
    rw [hc] at hbest
    obtain ⟨hmem, hdata⟩ := best_mem hc
    have hrate := Rb.rate_pos hmem hdata
    obtain ⟨hscheduled, hindex⟩ := Rb.handlePacket_some syms handlePkt hbest hrate
    exact ⟨c, hmem, hdata,
      fun d hd hddata => LastMax.le_of_scan hc (List.mem_filter.mpr ⟨hd, hddata⟩),
      hbest, hscheduled, hindex⟩

theorem mem_candidatesOf {d : ScheduleCandidate ℝ EReal} : d ∈ g.candidatesOf f hasPkts ↔
    ∃ (i : ℕ) (u : PhyMetrics ℝ EReal), g.ueList[i]? = some u ∧
      d = (u.getScheduleCandidate f g.ueList.length i (hasPkts i)).1 := by
  rw [candidatesOf, List.mem_iff_getElem?]
  refine exists_congr fun i => ?_
  rw [List.getElem?_map, Rb.candidates, List.getElem?_mapIdx, Option.map_map,
    Option.map_eq_some_iff]
  refine exists_congr fun u => and_congr_right fun _ => ?_
  exact eq_comm

theorem candidate_hasData (u : PhyMetrics ℝ EReal) (n i : ℕ) (pkts : Bool) :
    (u.getScheduleCandidate f n i pkts).1.hasData = true ↔ pkts = true ∧ 0 < u.tpV f := by
  by_cases hrr : u.metricH.isRr = true <;>
    simp [PhyMetrics.getScheduleCandidate, PhyMetrics.getMetric, PhyMetrics.getTp, hrr]

/-- A UE that has a rate got it with its last CQI. -/
theorem Renews.rate_iff {c : MetricConfig} {last : Option (ChannelInput ℝ)}
    {u : PhyMetrics ℝ EReal} (h : Renews c last u) :
    0 < u.tpV f ↔ ∃ x, last = some x ∧ f < c.nRbs ∧ 0 < x.tp f := by
  rw [h.rates]
  cases last with
  | none => simp
  | some x =>
      rw [Option.elim_some]
      by_cases hf : f < c.nRbs <;> simp [hf]

/-- The candidate of a UE with data is not below the bound when it is in range. -/
theorem Renews.inRange_iff {c : MetricConfig} {x : ChannelInput ℝ} {u : PhyMetrics ℝ EReal}
    (h : Renews c (some x) u) (hpos : 0 < c.priority) (hf : f < c.nRbs) (hrate : 0 < x.tp f)
    (n i : ℕ) (pkts : Bool) :
    -1 ≤ (u.getScheduleCandidate f n i pkts).1.metric ↔ InRange c x f := by
  by_cases hrr : checkMetric c.metricType = .rr
  · have hisRr : u.metricH.isRr = true := by
      rw [MetricHandler.isRr, h.metricT]
      exact decide_eq_true hrr
    have hmetric : (u.getScheduleCandidate f n i pkts).1.metric =
        (u.metricH.getRrMetric (K := EReal) f u.id n).1 := by
      simp [PhyMetrics.getScheduleCandidate, PhyMetrics.getMetric, hisRr]
    have hle : (-1 : EReal) ≤ (u.metricH.getRrMetric (K := EReal) f u.id n).1 := by
      have hturn : ∀ mine : Prop, [Decidable mine] → (-1 : EReal) ≤ if mine then 1 else 0 := by
        intro mine _
        by_cases hmine : mine
        · rw [if_pos hmine]
          exact MetricHandler.neg_one_le_coe.mpr (by norm_num : (-1 : ℝ) ≤ 1)
        · rw [if_neg hmine]
          exact MetricHandler.neg_one_le_coe.mpr (by norm_num : (-1 : ℝ) ≤ 0)
      exact hturn _
    rw [hmetric, InRange, hrr]
    exact iff_of_true hle trivial
  · have hplain : u.metricH.isRr = false := by
      rw [MetricHandler.isRr, h.metricT]
      exact decide_eq_false hrr
    have hmetric : (u.getScheduleCandidate f n i pkts).1.metric = u.metricV f := by
      simp [PhyMetrics.getScheduleCandidate, PhyMetrics.getMetric, hplain]
    rw [hmetric, h.metrics hrr f hf x rfl]
    exact MetricHandler.neg_one_le_metric_iff hpos hrate

/-- **When the greatest metric is served.**  For any UEs with positive priorities, any metrics,
and any run of TTIs up to any block with symbols: the block goes to a UE with data whose metric
is the greatest exactly when a UE with packets and a rate got a metric in range when its CQI
was last renewed. -/
theorem serves_best_iff (nTimeRbg nFreqRbg : ℕ) (cs : List MetricConfig)
    (hpos : ∀ c ∈ cs, 0 < c.priority) (es : List (GridEvent ℝ)) (t f syms : ℕ)
    (hsyms : 0 < syms) (hasPkts : ℕ → Bool) (handlePkt : ℤ → ℝ → ℝ) :
    ((create nTimeRbg nFreqRbg cs).run es).ServesBest t f syms hasPkts handlePkt ↔
      ∃ i c x, cs[i]? = some c ∧ hasPkts i = true ∧ lastCqi i es = some x ∧ f < c.nRbs ∧
        0 < x.tp f ∧ InRange c x f := by
  have hknown := known_run nTimeRbg nFreqRbg cs es
  rw [servesBest_iff_exists hknown.rest hsyms]
  generalize (create nTimeRbg nFreqRbg cs).run es = g at hknown
  constructor
  · rintro ⟨d, hd, hdata, hle⟩
    obtain ⟨i, u, hu, rfl⟩ := mem_candidatesOf.mp hd
    obtain ⟨c, hc, hrenews⟩ := hknown.ues i u hu
    obtain ⟨hpkts, hrate⟩ := (candidate_hasData u _ i (hasPkts i)).mp hdata
    obtain ⟨x, hlast, hf, hrate⟩ := hrenews.rate_iff.mp hrate
    rw [hlast] at hrenews
    have hrange := (hrenews.inRange_iff (hpos c (List.mem_of_getElem? hc)) hf hrate _ i _).mp hle
    exact ⟨i, c, x, hc, hpkts, hlast, hf, hrate, hrange⟩
  · rintro ⟨i, c, x, hc, hpkts, hlast, hf, hrate, hrange⟩
    obtain ⟨u, hu⟩ : ∃ u, g.ueList[i]? = some u := by
      have hlt : i < g.ueList.length := by
        rw [hknown.size]
        exact (List.getElem?_eq_some_iff.mp hc).1
      exact ⟨_, List.getElem?_eq_getElem hlt⟩
    obtain ⟨c', hc', hrenews⟩ := hknown.ues i u hu
    obtain rfl := Option.some.inj (hc.symm.trans hc')
    have hdata := (candidate_hasData u g.ueList.length i (hasPkts i)).mpr
      ⟨hpkts, hrenews.rate_iff.mpr ⟨x, hlast, hf, hrate⟩⟩
    rw [hlast] at hrenews
    exact ⟨_, mem_candidatesOf.mpr ⟨i, u, hu, rfl⟩, hdata,
      (hrenews.inRange_iff (hpos c (List.mem_of_getElem? hc)) hf hrate _ i _).mpr hrange⟩

/-- A UE that is scheduled by the distance to the delay. -/
noncomputable def distDelayUe : MetricConfig where
  metricType := 2
  priority := 1
  beta := 1 / 2
  delayT := 1 / 10
  delta := 1
  nRbs := 1

/-- A new CQI with a rate, when the oldest packet is so old. -/
noncomputable def aged (age : ℝ) : ChannelInput ℝ where
  oldestT := 0
  avgTp := 0
  avgTp_nonneg := le_rfl
  currentT := age
  updateCqi := true
  tp := fun _ => 1

/-- Fifty milliseconds before the delay the UE is served. -/
theorem serves_best_in_time : ((create 1 1 [distDelayUe]).run
    [.channel fun _ => aged (1 / 20)]).ServesBest 0 0 14 (fun _ => true) fun _ bits => bits := by
  refine (serves_best_iff 1 1 [distDelayUe] ?_ [.channel fun _ => aged (1 / 20)] 0 0 14
    (by decide) (fun _ => true) fun _ bits => bits).mpr
    ⟨0, distDelayUe, aged (1 / 20), rfl, rfl, rfl, Nat.one_pos, one_pos, ?_⟩
  · intro c hc
    rw [List.mem_singleton.mp hc]
    exact one_pos
  · rintro ⟨hlow, -⟩
    norm_num [ChannelInput.age, aged] at hlow

/-- A tenth of a second after the delay the UE has data and a rate, and is left out. -/
theorem serves_none_late :
    let g := (create 1 1 [distDelayUe]).run [.channel fun _ => aged (1 / 5)]
    (∃ c ∈ g.candidatesOf 0 fun _ => true, c.hasData = true) ∧
      ¬g.ServesBest 0 0 14 (fun _ => true) fun _ bits => bits := by
  intro g
  have hknown := known_run 1 1 [distDelayUe] [.channel fun _ => aged (1 / 5)]
  obtain ⟨u, hu⟩ : ∃ u, g.ueList[0]? = some u := ⟨_, rfl⟩
  have hone : ∀ (i : ℕ) (v : PhyMetrics ℝ EReal), g.ueList[i]? = some v →
      Renews distDelayUe (some (aged (1 / 5))) v := by
    intro i v hv
    obtain ⟨c, hc, hrenews⟩ := hknown.ues i v hv
    rw [List.mem_singleton.mp (List.mem_of_getElem? hc)] at hrenews
    exact hrenews
  constructor
  · refine ⟨_, mem_candidatesOf.mpr ⟨0, u, hu, rfl⟩, (candidate_hasData u _ 0 _).mpr ⟨rfl, ?_⟩⟩
    exact (hone 0 u hu).rate_iff.mpr ⟨_, rfl, Nat.one_pos, one_pos⟩
  · rw [servesBest_iff_exists hknown.rest (by decide)]
    rintro ⟨d, hd, -, hle⟩
    obtain ⟨i, v, hv, rfl⟩ := mem_candidatesOf.mp hd
    refine ((hone i v hv).inRange_iff one_pos Nat.one_pos one_pos _ i _).mp hle ⟨?_, ?_⟩ <;>
      norm_num [ChannelInput.age, aged, distDelayUe]

end RbGrid

end NetworkEmulator
