/-
The bits that a listener hears of.

A sum in a line of the aggregator is the sum over the points of the line, and no point is in
two lines (`Reporting`), so the sums that were written and the points that were not add up to
what was published.  Of the grids, that is what the UEs pushed to their release sides
(`SharedMetrics`): whatever the threads of the emulator and the worker of the aggregator do,
the lines of a direction account for every bit that was sent in it.

The sums of lines are sums of doubles.  They are exact as long as the bits are whole numbers and
fewer than a double has places for (`Whole`).
-/
import NetworkEmulator.Model.Monitoring
import NetworkEmulator.Proofs.Dashboard
import NetworkEmulator.Proofs.SharedMetrics

namespace NetworkEmulator

/-! ### The sums of lines -/

/-- What a line says of a field. -/
def Line.said (l : Line) (name : String) : ℚ :=
  ((l.fields.filter fun f => f.1 = name).map Prod.snd).sum

/-- What a point has for a field. -/
def MetricPoint.value (p : MetricPoint) (name : String) : ℚ :=
  (p.fields[name]?.map MetricField.value).getD 0

/-- The field is a sum in every point that has it. -/
def Summed (name : String) (ps : List MetricPoint) : Prop :=
  ∀ p ∈ ps, ∀ f, p.fields[name]? = some f → f.aggregation = .sum

/-- The points have whole numbers for the field, and small ones together. -/
structure Whole (name : String) (ps : List MetricPoint) : Prop where
  whole : ∀ p ∈ ps, ∃ n : ℕ, (n : ℚ) = p.value name
  small : weight (fun p => p.value name) ps ≤ 2 ^ 53

variable {name key : String}

theorem Whole.nonneg {ps : List MetricPoint} (h : Whole name ps) :
    ∀ p ∈ ps, 0 ≤ p.value name := by
  intro p hp
  obtain ⟨n, hn⟩ := h.whole p hp
  exact hn ▸ n.cast_nonneg

/-- Some of the points are small together too. -/
theorem Whole.of_perm {ps qs rest : List MetricPoint} (h : Whole name ps)
    (hperm : (qs ++ rest).Perm ps) : Whole name qs := by
  refine ⟨fun p hp => h.whole p (hperm.subset (List.mem_append_left _ hp)), ?_⟩
  have hrest : 0 ≤ weight (fun p => p.value name) rest :=
    weight_nonneg fun p hp => h.nonneg p (hperm.subset (List.mem_append_right _ hp))
  have hall := weight_perm (w := fun p => p.value name) hperm
  rw [weight_append] at hall
  linarith [h.small]

private theorem samples_total (name : String) (ps : List MetricPoint) :
    ((samples name ps).map fun x => x.1.value).sum = weight (fun p => p.value name) ps := by
  induction ps with
  | nil => rfl
  | cons p ps ih =>
      rw [weight_cons, ← ih, samples, List.filterMap_cons, MetricPoint.value]
      cases p.fields[name]? with
      | none => exact (zero_add _).symm
      | some f => exact List.sum_cons

/-- Whole numbers that are small together are added as doubles without rounding. -/
private theorem Whole.sum_samples {ps : List MetricPoint} (h : Whole name ps) :
    Rounding.binary64.sum ((samples name ps).map fun x => x.1.value) =
      ((samples name ps).map fun x => x.1.value).sum := by
  have hvalue : ∀ v ∈ (samples name ps).map fun x => x.1.value, ∃ n : ℕ, (n : ℚ) = v := by
    intro v hv
    obtain ⟨x, hx, rfl⟩ := List.mem_map.mp hv
    obtain ⟨p, hp, hf, -⟩ := mem_samples.mp hx
    obtain ⟨n, hn⟩ := h.whole p hp
    exact ⟨n, by rw [hn, MetricPoint.value, hf]; rfl⟩
  have habs : ((samples name ps).map fun x => x.1.value).map abs =
      (samples name ps).map fun x => x.1.value := by
    nth_rewrite 2 [← List.map_id ((samples name ps).map fun x => x.1.value)]
    refine List.map_congr_left fun v hv => ?_
    obtain ⟨n, rfl⟩ := hvalue v hv
    exact Nat.abs_cast n
  refine Rounding.Format.sum_eq (fun v hv => ?_) ?_
  · obtain ⟨n, hn⟩ := hvalue v hv
    exact ⟨n, hn⟩
  · rw [habs, samples_total]
    exact h.small

/-- A line has the fields of its series. -/
private theorem Report.Made.entry {r : Report} {closed : List (List MetricPoint)}
    (h : r.Made closed) (name : String) : r.line.said name =
      ((SeriesWindow.ofPoints r.points).fields[name]?.map WindowAccum.value).getD 0 := by
  obtain ⟨now, hline⟩ := h.line
  obtain ⟨-, -, hfields, -⟩ := line_eq_some hline
  have hentry : r.line.fields.filter (fun f => f.1 = name) =
      (SeriesWindow.ofPoints r.points).fields[name]?.toList.map fun a => (name, a.value) := by
    rw [hfields, List.filter_map]
    show ((SeriesWindow.ofPoints r.points).fields.toList.filter fun e => e.1 = name).map _ = _
    rw [GroupFold.toList_filter_key, List.map_map]
    rfl
  rw [Line.said, hentry]
  cases (SeriesWindow.ofPoints r.points).fields[name]? with
  | none => rfl
  | some a => simp

/-- **A line says of a sum what its points come to.** -/
theorem Report.Made.said {r : Report} {closed : List (List MetricPoint)} (h : r.Made closed)
    (hsum : Summed name r.points) (hwhole : Whole name r.points) :
    r.line.said name = weight (fun p => p.value name) r.points := by
  have hkind : ∀ x ∈ samples name r.points, x.1.aggregation = .sum := by
    intro x hx
    obtain ⟨p, hp, hsome⟩ := List.mem_filterMap.mp hx
    obtain ⟨f, hf, rfl⟩ := Option.map_eq_some_iff.mp hsome
    exact hsum p hp f hf
  rw [h.entry, SeriesWindow.getElem?_fields_ofPoints, ← samples_total]
  by_cases hnone : samples name r.points = []
  · rw [if_pos hnone, hnone]
    rfl
  · have hvalue : (WindowAccum.ofSamples (samples name r.points)).value =
        Rounding.binary64.sum ((samples name r.points).map fun x => x.1.value) := by
      rw [WindowAccum.value, WindowAccum.aggregation_ofSamples hkind hnone]
      refine WindowAccum.sum_ofSamples fun x hx => ?_
      rw [hkind x hx]
      decide
    rw [if_neg hnone, Option.map_some, Option.getD_some, hvalue]
    exact hwhole.sum_samples

namespace Aggregator

/-- What the lines of a series have said of a field. -/
def said (s : Aggregator) (key name : String) : ℚ :=
  weight (fun r => r.line.said name) (s.emitted.filter fun r => r.key = key)

/-- The points of a series that no line has been written of. -/
def unsaid (s : Aggregator) (key : String) : List MetricPoint :=
  (s.pending ++ s.window).filter fun p => p.key = key

variable {s : Aggregator}

/-- The lines of a series say what its points in them come to. -/
private theorem said_eq {rs : List Report} {closed : List (List MetricPoint)}
    (hmade : ∀ r ∈ rs, r.Made closed)
    (hsum : Summed name ((rs.flatMap Report.points).filter fun p => p.key = key))
    (hwhole : Whole name ((rs.flatMap Report.points).filter fun p => p.key = key)) :
    weight (fun r => r.line.said name) (rs.filter fun r => r.key = key) =
      weight (fun p => p.value name) ((rs.flatMap Report.points).filter fun p => p.key = key) := by
  induction rs with
  | nil => rfl
  | cons r rs ih =>
      rw [List.flatMap_cons, List.filter_append] at hsum hwhole
      have hrest := ih (fun q hq => hmade q (List.mem_cons_of_mem _ hq))
        (fun p hp => hsum p (List.mem_append_right _ hp)) (hwhole.of_perm List.perm_append_comm)
      have hr := hmade r (List.mem_cons_self ..)
      rw [List.flatMap_cons, List.filter_append, weight_append, ← hrest]
      by_cases hkey : r.key = key
      · have hall : r.points.filter (fun p => p.key = key) = r.points := by
          refine List.filter_eq_self.mpr fun p hp => ?_
          exact decide_eq_true ((hr.series p hp).trans hkey)
        rw [hall] at hsum hwhole ⊢
        rw [List.filter_cons_of_pos (by simpa using hkey), weight_cons,
          hr.said (fun p hp => hsum p (List.mem_append_left _ hp)) (hwhole.of_perm (.refl _))]
      · have hnone : r.points.filter (fun p => p.key = key) = [] := by
          refine List.filter_eq_nil_iff.mpr fun p hp hpk => hkey ?_
          exact (hr.series p hp).symm.trans (of_decide_eq_true hpk)
        rw [List.filter_cons_of_neg (by simpa using hkey), hnone, weight_nil, zero_add]

/-- **No part of a sum is lost or said twice.**  What the lines of a series have said of a sum,
with the points that are to be written, is what was added. -/
theorem Sound.said (h : s.Sound) (hsum : Summed name (s.added.filter fun p => p.key = key))
    (hwhole : Whole name (s.added.filter fun p => p.key = key)) :
    s.said key name + weight (fun p => p.value name) (s.unsaid key) =
      weight (fun p => p.value name) (s.added.filter fun p => p.key = key) := by
  have hperm : ((s.emitted.flatMap Report.points) ++ (s.pending ++ s.window)).Perm s.added := by
    rw [h.added, ← List.append_assoc]
    exact h.reported.append_right s.window
  have hfilter := hperm.filter fun p => p.key = key
  rw [List.filter_append] at hfilter
  rw [Aggregator.said, unsaid, said_eq h.made, ← weight_append]
  · exact weight_perm hfilter
  · intro p hp
    exact hsum p (hfilter.subset (List.mem_append_left _ hp))
  · exact hwhole.of_perm hfilter

end Aggregator

/-! ### The points of the grids -/

/-- The series of a direction. -/
def macKey (tx : Direction) : String := (macPoint tx {} 0).key

theorem macPoint_key (tx : Direction) (m : GridStepMetrics) (now : ℤ) :
    (macPoint tx m now).key = macKey tx := rfl

theorem macKey_inj {tx tx' : Direction} (h : macKey tx = macKey tx') : tx = tx' := by
  have hne : macKey .dl ≠ macKey .ul := by decide +kernel
  cases tx <;> cases tx'
  · rfl
  · exact absurd h hne
  · exact absurd h.symm hne
  · rfl

/-- A point of a grid says how many bits were sent. -/
theorem macPoint_effective (tx : Direction) (m : GridStepMetrics) (now : ℤ) :
    (macPoint tx m now).fields["effective_bits_sum"]? =
      some (makeMetricField m.effectiveBits .sum) := by
  have hnames : ["scheduled_rbg_sum", "empty_rbg_sum", "scheduled_ues_sum",
      "active_ues_with_data_mean", "scheduled_bits_sum", "effective_bits_sum",
      "grid_capacity_bits_last", "utilization_ratio_mean",
      "scheduling_efficiency_ratio_mean"].Pairwise fun a b => ¬ compare a b = .eq := by
    decide +kernel
  refine Std.ExtTreeMap.getElem?_ofList_of_mem (k := "effective_bits_sum")
    Std.ReflCmp.compare_self ?_ (by simp)
  exact List.Pairwise.of_map Prod.fst (fun _ _ h => h) hnames

theorem macPoint_isEmpty (tx : Direction) (m : GridStepMetrics) (now : ℤ) :
    (macPoint tx m now).fields.isEmpty = false := by
  rw [Std.ExtTreeMap.isEmpty_eq_false_iff]
  intro hempty
  have heff := macPoint_effective tx m now
  rw [hempty, Std.ExtTreeMap.getElem?_empty] at heff
  cases heff

@[simp] theorem effectivePoint_measurement (slotTs : ℤ) (p : MetricPoint) (now : ℤ) :
    (effectivePoint slotTs p now).measurement = p.measurement := by
  simp only [effectivePoint]
  split <;> split <;> rfl

@[simp] theorem effectivePoint_fields (slotTs : ℤ) (p : MetricPoint) (now : ℤ) :
    (effectivePoint slotTs p now).fields = p.fields := by
  simp only [effectivePoint]
  split <;> split <;> rfl

@[simp] theorem effectivePoint_key (slotTs : ℤ) (p : MetricPoint) (now : ℤ) :
    (effectivePoint slotTs p now).key = p.key := by
  simp only [effectivePoint]
  split <;> split <;> rfl

theorem effectivePoint_macPoint (slotTs : ℤ) (tx : Direction) (m : GridStepMetrics) (t now : ℤ) :
    ∃ t', effectivePoint slotTs (macPoint tx m t) now = macPoint tx m t' := by
  simp only [effectivePoint]
  split <;> split <;> exact ⟨_, rfl⟩

/-- A point of a grid can be followed. -/
theorem macPoint_followed (tx : Direction) (m : GridStepMetrics) {now : ℤ} (hnow : 0 < now) :
    (macPoint tx m now).Followed := by
  have hnames : ∀ name ∈ ["scheduled_rbg_sum", "empty_rbg_sum", "scheduled_ues_sum",
      "active_ues_with_data_mean", "scheduled_bits_sum", "effective_bits_sum",
      "grid_capacity_bits_last", "utilization_ratio_mean", "scheduling_efficiency_ratio_mean"],
      PlainText name := by decide +kernel
  have hplain : ∀ d : Direction, (macPoint d {} 0).Plain := by
    intro d
    cases d <;> exact ⟨by decide +kernel, by decide +kernel⟩
  refine { measurement := (hplain tx).measurement, tags := (hplain tx).tags
           fields := fun name hname => ?_, positive := hnow }
  rw [macPoint, Std.ExtTreeMap.mem_ofList] at hname
  exact hnames name (by simpa using hname)

/-- The points that there are. -/
def Known (p : MetricPoint) : Prop :=
  p.measurement ∈ otherMeasurements ∨ ∃ tx m now, p = macPoint tx m now

private theorem other_plain : ∀ m ∈ otherMeasurements, '|' ∉ m.toList ∧ m ≠ "mac_scheduler" := by
  decide +kernel

/-- A point of a grid, once it has a time, can be followed. -/
theorem Known.followed {p : MetricPoint} (h : Known p) (hmac : p.measurement = "mac_scheduler")
    (hpos : 0 < p.tsNs) : p.Followed := by
  rcases h with hother | ⟨tx, m, now, rfl⟩
  · exact absurd hmac (other_plain _ hother).2
  · exact macPoint_followed tx m hpos

/-- A point of another part is in no series of a grid. -/
theorem key_of_other {p : MetricPoint} (h : p.measurement ∈ otherMeasurements) (tx : Direction) :
    p.key ≠ macKey tx := by
  have hmac : keyMeasurement (macKey tx) = "mac_scheduler" := by
    refine (key_split (p := macPoint tx {} 0) ?_).1
    show '|' ∉ "mac_scheduler".toList
    decide +kernel
  intro heq
  have hsplit := (key_split (other_plain _ h).1).1
  rw [heq, hmac] at hsplit
  exact (other_plain _ h).2 hsplit.symm

theorem Aggregator.added_addPoint {p : MetricPoint} (h : p.fields.isEmpty = false)
    (g : Aggregator) : (g.addPoint p).added = g.added ++ [p] := by
  rw [addPoint, h]
  rfl

/-- Only `add_point` adds. -/
theorem Aggregator.added_step {g g' : Aggregator} {a : AggregatorStep}
    (ha : ∀ p, a ≠ .addPoint p) (h : g.step a = some g') : g'.added = g.added := by
  cases a with
  | addPoint p => exact absurd rfl (ha p)
  | test =>
      simp only [step] at h
      split at h
      · obtain rfl := Option.some.inj h
        rfl
      · cases h
  | swap =>
      simp only [step] at h
      split at h
      · obtain rfl := Option.some.inj h
        rfl
      · cases h
  | emit key now =>
      simp only [step] at h
      split at h
      · obtain ⟨series, -, rfl⟩ := Option.map_eq_some_iff.mp h
        rw [emit]
        split <;> rfl
      · cases h
  | loopEnd =>
      simp only [step] at h
      split at h
      · split at h
        · obtain rfl := Option.some.inj h
          rfl
        · cases h
      · cases h
  | shutdown =>
      obtain rfl := Option.some.inj h
      rfl

/-- To publish a point changes what it says of nothing. -/
private theorem weight_effective (slotTs : ℤ) (p : MetricPoint) (now : ℤ) (name key : String) :
    weight (fun p => p.value name) ([effectivePoint slotTs p now].filter fun p => p.key = key) =
      weight (fun p => p.value name) ([p].filter fun p => p.key = key) := by
  by_cases hkey : p.key = key
  · simp [hkey, MetricPoint.value]
  · simp [hkey]

namespace Emulation

variable {K H Env In W V : Type} [LinearOrder K] [Zero K] [Neg K] [One K]
  [PacketHandler H Env In] [DecidableEq W] [DecidableEq V] [Fintype W] [Fintype V]

namespace Monitored

variable {M : LogMath} {fuel : ℕ} {s₀ s s' : Monitored K (Observed H) Env In W V}

/-- The points that were built, whether they are published or not. -/
def points (s : Monitored K H Env In W V) : List MetricPoint := s.aggregator.added ++ s.built

/-- **What holds between two steps of the threads.**  What the points of a direction say was sent
is what the UEs have pushed since `s₀`. -/
structure Accounts (s₀ s : Monitored K (Observed H) Env In W V) : Prop where
  ready : s.emulator.Ready
  cell : s.emulator.cell.Sound
  aggregator : s.aggregator.Sound
  emits : s.emitMacScheduler = true
  built : ∀ p ∈ s.built, ∃ tx m now, p = macPoint tx m now
  known : ∀ p ∈ s.aggregator.added, Known p
  sent : ∀ tx, weight (fun p => p.value "effective_bits_sum")
      (s.points.filter fun p => p.key = macKey tx) =
    (s.emulator.cell.view tx).sentBits - (s₀.emulator.cell.view tx).sentBits

namespace Accounts

omit [Fintype W] [Fintype V] in
/-- The points of a direction, by what they are. -/
private theorem value_macPoint (tx tx' : Direction) (m : GridStepMetrics) (now : ℤ) :
    weight (fun p => p.value "effective_bits_sum")
      ([macPoint tx' m now].filter fun p => p.key = macKey tx) =
        if tx' = tx then m.effectiveBits else 0 := by
  by_cases htx : tx' = tx
  · subst htx
    rw [if_pos rfl, List.filter_cons_of_pos (by simp [macPoint_key]), List.filter_nil,
      weight_singleton, MetricPoint.value, macPoint_effective]
    rfl
  · have hkey : (macPoint tx' m now).key ≠ macKey tx := fun heq => htx (macKey_inj heq)
    rw [if_neg htx, List.filter_cons_of_neg (by simpa using hkey), List.filter_nil, weight_nil]

/-- A step of the emulator builds points of what was sent in it. -/
private theorem simulate (h : Accounts s₀ s) (hbuilt : s.built = []) {x : ℚ × Schedule W V}
    {slotTs now : ℤ} {e : Emulator K (Observed H) Env In W V}
    (hstep : s.emulator.step M fuel x = some e) :
    Accounts s₀ { s with emulator := e, slotTimestampNs := slotTs
                         built := s.macPoints e.cell now } := by
  obtain ⟨hcell, hready⟩ := h.ready.step hstep
  obtain ⟨hsound, hreports⟩ := h.cell.step hcell
  have hpoints : s.macPoints e.cell now =
      [macPoint .dl e.cell.gridDl.lastStepMetrics now] ++
        [macPoint .ul e.cell.gridUl.lastStepMetrics now] := by
    rw [macPoints, h.emits, if_pos rfl]
    rfl
  refine { ready := hready, cell := hsound, aggregator := h.aggregator, emits := h.emits
           built := ?_, known := h.known, sent := fun tx => ?_ }
  · intro p hp
    replace hp : p ∈ s.macPoints e.cell now := hp
    rw [hpoints] at hp
    rcases List.mem_append.mp hp with hp | hp
    · exact ⟨_, _, _, List.mem_singleton.mp hp⟩
    · exact ⟨_, _, _, List.mem_singleton.mp hp⟩
  · have hbefore := h.sent tx
    rw [points, hbuilt, List.append_nil] at hbefore
    show weight _ ((s.aggregator.added ++ s.macPoints e.cell now).filter _) = _
    rw [hpoints, List.filter_append, List.filter_append, weight_append, weight_append,
      value_macPoint, value_macPoint, hbefore, (hreports tx).sent]
    cases tx with
    | dl =>
        show _ + (e.cell.gridDl.lastStepMetrics.effectiveBits + 0) =
          _ + e.cell.gridDl.lastStepMetrics.effectiveBits - _
        ring
    | ul =>
        show _ + (0 + e.cell.gridUl.lastStepMetrics.effectiveBits) =
          _ + e.cell.gridUl.lastStepMetrics.effectiveBits - _
        ring

omit [LinearOrder K] [Zero K] [PacketHandler H Env In] [DecidableEq W] [DecidableEq V] in
/-- A point of a grid is published. -/
private theorem publishMac (h : Accounts s₀ s) {p : MetricPoint} {rest : List MetricPoint}
    (hbuilt : s.built = p :: rest) (now : ℤ) :
    Accounts s₀
      (({ s with built := rest } : Monitored K (Observed H) Env In W V).publish p now) := by
  obtain ⟨tx', m, t, rfl⟩ := h.built p (hbuilt ▸ List.mem_cons_self ..)
  have hadded : (s.aggregator.addPoint
      (effectivePoint s.slotTimestampNs (macPoint tx' m t) now)).added =
        s.aggregator.added ++ [effectivePoint s.slotTimestampNs (macPoint tx' m t) now] := by
    refine Aggregator.added_addPoint ?_ _
    rw [effectivePoint_fields]
    exact macPoint_isEmpty tx' m t
  refine { ready := h.ready, cell := h.cell, aggregator := h.aggregator.addPoint _
           emits := h.emits, built := ?_, known := ?_, sent := fun tx => ?_ }
  · intro q hq
    exact h.built q (hbuilt ▸ List.mem_cons_of_mem _ hq)
  · intro q hq
    replace hq : q ∈ (s.aggregator.addPoint _).added := hq
    rw [hadded] at hq
    rcases List.mem_append.mp hq with hq | hq
    · exact h.known q hq
    · obtain ⟨t', ht'⟩ := effectivePoint_macPoint s.slotTimestampNs tx' m t now
      exact Or.inr ⟨tx', m, t', (List.mem_singleton.mp hq).trans ht'⟩
  · refine Eq.trans ?_ (h.sent tx)
    show weight _ (((s.aggregator.addPoint _).added ++ rest).filter _) = _
    rw [hadded, points, hbuilt, ← List.singleton_append (l := rest), ← List.append_assoc]
    simp only [List.filter_append, weight_append, weight_effective]

omit [LinearOrder K] [Zero K] [PacketHandler H Env In] [DecidableEq W] [DecidableEq V] in
/-- A point of another part is published. -/
private theorem publishOther (h : Accounts s₀ s) {p : MetricPoint}
    (hp : p.measurement ∈ otherMeasurements) (now : ℤ) : Accounts s₀ (s.publish p now) := by
  by_cases hfields : p.fields.isEmpty = true
  · have hsame : s.publish p now = s := by
      rw [publish, Aggregator.addPoint, effectivePoint_fields, hfields]
      rfl
    rw [hsame]
    exact h
  have hadded : (s.aggregator.addPoint (effectivePoint s.slotTimestampNs p now)).added =
      s.aggregator.added ++ [effectivePoint s.slotTimestampNs p now] := by
    refine Aggregator.added_addPoint ?_ _
    rw [effectivePoint_fields]
    exact Bool.eq_false_of_not_eq_true hfields
  refine { ready := h.ready, cell := h.cell, aggregator := h.aggregator.addPoint _
           emits := h.emits, built := h.built, known := ?_, sent := fun tx => ?_ }
  · intro q hq
    replace hq : q ∈ (s.aggregator.addPoint _).added := hq
    rw [hadded] at hq
    rcases List.mem_append.mp hq with hq | hq
    · exact h.known q hq
    · rw [List.mem_singleton.mp hq]
      exact Or.inl ((effectivePoint_measurement ..).symm ▸ hp)
  · refine Eq.trans ?_ (h.sent tx)
    show weight _ (((s.aggregator.addPoint _).added ++ s.built).filter _) = _
    have hnone : [effectivePoint s.slotTimestampNs p now].filter
        (fun q => q.key = macKey tx) = [] :=
      List.filter_cons_of_neg (by simpa using key_of_other hp tx)
    rw [hadded, points, List.filter_append, List.filter_append, hnone, List.append_nil,
      ← List.filter_append]

omit [LinearOrder K] [Zero K] [PacketHandler H Env In] [DecidableEq W] [DecidableEq V] in
/-- The worker of the aggregator. -/
private theorem worker (h : Accounts s₀ s) {a : AggregatorStep} (ha : ∀ p, a ≠ .addPoint p)
    {g : Aggregator} (hstep : s.aggregator.step a = some g) :
    Accounts s₀ { s with aggregator := g } := by
  have hadded := Aggregator.added_step ha hstep
  refine { ready := h.ready, cell := h.cell, aggregator := h.aggregator.step hstep
           emits := h.emits, built := h.built, known := ?_, sent := fun tx => ?_ }
  · intro q hq
    replace hq : q ∈ g.added := hq
    rw [hadded] at hq
    exact h.known q hq
  · show weight _ ((g.added ++ s.built).filter _) = _
    rw [hadded]
    exact h.sent tx

/-- **Every step of every thread keeps the account.** -/
theorem step (h : Accounts s₀ s) {a : MonitoredStep W V} (hstep : s.step M fuel a = some s') :
    Accounts s₀ s' := by
  cases a with
  | simulate x slotTs now =>
      rw [Monitored.step] at hstep
      split at hstep
      · cases hstep
      · rename_i hbuilt
        obtain ⟨e, he, rfl⟩ := Option.map_eq_some_iff.mp hstep
        exact h.simulate (not_not.mp hbuilt) he
  | publishMac now =>
      rw [Monitored.step] at hstep
      split at hstep
      · cases hstep
      · rename_i p rest hbuilt
        obtain rfl := Option.some.inj hstep
        exact h.publishMac hbuilt now
  | publishOther p now =>
      rw [Monitored.step] at hstep
      split at hstep
      · rename_i hp
        obtain rfl := Option.some.inj hstep
        exact h.publishOther hp now
      · cases hstep
  | clearSlot =>
      rw [Monitored.step] at hstep
      split at hstep
      · obtain rfl := Option.some.inj hstep
        exact { h with }
      · cases hstep
  | worker a =>
      cases a with
      | addPoint p => cases hstep
      | _ =>
          simp only [Monitored.step] at hstep
          obtain ⟨g, hg, rfl⟩ := Option.map_eq_some_iff.mp hstep
          exact h.worker (fun p => by simp) hg

end Accounts

/-! ### What a listener hears -/

end Monitored

end Emulation

/-- What a decoded line has for a field. -/
def InfluxPoint.value (q : InfluxPoint) (name : String) : ℚ := q.fields[name]?.getD 0

/-- The line is about the grid of a direction. -/
def InfluxPoint.OfMac (tx : Direction) (q : InfluxPoint) : Prop :=
  q.measurement = "mac_scheduler" ∧ q.tags["tx_dir"]? = some tx.tag

instance (tx : Direction) (q : InfluxPoint) : Decidable (q.OfMac tx) :=
  inferInstanceAs (Decidable (_ ∧ _))

/-- What a listener makes of the lines about the grid of a direction. -/
def Aggregator.heard (s : Aggregator) (tx : Direction) : List InfluxPoint :=
  (s.emitted.filterMap fun r => parseInfluxLine r.line.text).filter fun q => q.OfMac tx

/-- Of the points there are, those of a grid are the ones that are decoded as such. -/
private theorem Known.ofMac_iff {p : MetricPoint} (hp : Known p) (tx : Direction)
    (fields : Std.ExtTreeMap String ℚ) (tsNs : ℤ) :
    InfluxPoint.OfMac tx { measurement := p.measurement, tags := p.tags, fields, tsNs } ↔
      p.key = macKey tx := by
  rcases hp with hother | ⟨tx', m, now, rfl⟩
  · constructor
    · intro hmac
      exact absurd hmac.1 (other_plain _ hother).2
    · intro hkey
      exact absurd hkey (key_of_other hother tx)
  · have htags : ∀ d : Direction, (macPoint d {} 0).tags["tx_dir"]? = some d.tag := by
      intro d
      cases d <;> decide +kernel
    have htag : (macPoint tx' m now).tags["tx_dir"]? = some tx'.tag := htags tx'
    constructor
    · rintro ⟨-, hdir⟩
      have heq : tx'.tag = tx.tag := Option.some.inj (htag.symm.trans hdir)
      rw [macPoint_key]
      cases tx <;> cases tx' <;> first | rfl | exact absurd heq (by decide +kernel)
    · intro hkey
      obtain rfl := macKey_inj hkey
      exact ⟨rfl, htag⟩

/-- **What is decoded is what was said**, up to the digits that are printed. -/
private theorem heard_near {rs : List Report} (tx : Direction) (name : String)
    (hparse : ∀ r ∈ rs, ∃ p : MetricPoint, Known p ∧ p.key = r.key ∧ ∃ (fields : _) (tsNs : ℤ),
      parseInfluxLine r.line.text =
        some { measurement := p.measurement, tags := p.tags, fields, tsNs } ∧
      |fields[name]?.getD 0 - r.line.said name| ≤ 1 / 2000000) :
    |weight (fun q => q.value name)
        ((rs.filterMap fun r => parseInfluxLine r.line.text).filter fun q => q.OfMac tx) -
      weight (fun r => r.line.said name) (rs.filter fun r => r.key = macKey tx)| ≤
      (((rs.filterMap fun r => parseInfluxLine r.line.text).filter
        fun q => q.OfMac tx).length : ℚ) / 2000000 := by
  induction rs with
  | nil => simp
  | cons r rs ih =>
      have hrest := ih fun q hq => hparse q (List.mem_cons_of_mem _ hq)
      obtain ⟨p, hp, hkey, fields, tsNs, htext, hnear⟩ := hparse r (List.mem_cons_self ..)
      rw [List.filterMap_cons_some (f := fun r : Report => parseInfluxLine r.line.text) htext]
      by_cases hmac : r.key = macKey tx
      · have hof := (hp.ofMac_iff tx fields tsNs).mpr (hkey.trans hmac)
        rw [List.filter_cons_of_pos (by simpa using hof),
          List.filter_cons_of_pos (by simpa using hmac), weight_cons, weight_cons,
          List.length_cons, Nat.cast_add_one]
        rw [abs_le] at hrest hnear ⊢
        constructor
        · have hvalue : InfluxPoint.value ⟨p.measurement, p.tags, fields, tsNs⟩ name =
            fields[name]?.getD 0 := rfl
          linarith [hrest.1, hnear.1]
        · have hvalue : InfluxPoint.value ⟨p.measurement, p.tags, fields, tsNs⟩ name =
            fields[name]?.getD 0 := rfl
          linarith [hrest.2, hnear.2]
      · have hof : ¬InfluxPoint.OfMac tx ⟨p.measurement, p.tags, fields, tsNs⟩ := fun h =>
          hmac (hkey.symm.trans ((hp.ofMac_iff tx fields tsNs).mp h))
        rw [List.filter_cons_of_neg (by simpa using hof),
          List.filter_cons_of_neg (by simpa using hmac)]
        exact hrest

namespace Emulation.Monitored

variable {K H Env In W V : Type} [LinearOrder K] [Zero K] [Neg K] [One K]
  [PacketHandler H Env In] [DecidableEq W] [DecidableEq V] [Fintype W] [Fintype V]
  {M : LogMath} {fuel : ℕ} {s₀ s s' : Monitored K (Observed H) Env In W V}

/-- The points of a direction that no line has been written of, published or not. -/
def waiting (s : Monitored K H Env In W V) (tx : Direction) : List MetricPoint :=
  s.aggregator.unsaid (macKey tx) ++ s.built.filter fun p => p.key = macKey tx

omit [LinearOrder K] [Zero K] [PacketHandler H Env In] [DecidableEq W] [DecidableEq V] in
/-- What was said and what waits is what was sent. -/
private theorem Accounts.said (h : Accounts s₀ s) (tx : Direction)
    (hwhole : Whole "effective_bits_sum"
      (s.aggregator.added.filter fun p => p.key = macKey tx)) :
    s.aggregator.said (macKey tx) "effective_bits_sum" +
        weight (fun p => p.value "effective_bits_sum") (s.waiting tx) =
      (s.emulator.cell.view tx).sentBits - (s₀.emulator.cell.view tx).sentBits := by
  have hsummed : Summed "effective_bits_sum"
      (s.aggregator.added.filter fun p => p.key = macKey tx) := by
    intro p hp f hf
    obtain ⟨hmem, hkey⟩ := List.mem_filter.mp hp
    rcases h.known p hmem with hother | ⟨tx', m, now, rfl⟩
    · exact absurd (of_decide_eq_true hkey) (key_of_other hother tx)
    · rw [macPoint_effective] at hf
      obtain rfl := Option.some.inj hf
      rfl
  rw [waiting, weight_append, ← add_assoc, h.aggregator.said hsummed hwhole, ← weight_append,
    ← List.filter_append]
  exact h.sent tx

omit [LinearOrder K] [Zero K] [PacketHandler H Env In] [DecidableEq W] [DecidableEq V] in
/-- What is heard is what was said. -/
private theorem Accounts.heard (h : Accounts s₀ s)
    (hfollowed : ∀ p ∈ s.aggregator.added, p.Followed) (tx : Direction) :
    |weight (fun q => q.value "effective_bits_sum") (s.aggregator.heard tx) -
        s.aggregator.said (macKey tx) "effective_bits_sum"| ≤
      ((s.aggregator.heard tx).length : ℚ) / 2000000 := by
  refine heard_near tx "effective_bits_sum" fun r hr => ?_
  have hmade := h.aggregator.made r hr
  obtain ⟨p, hp⟩ := List.exists_mem_of_ne_nil _ hmade.nonempty
  have hadded : ∀ q ∈ r.points, q ∈ s.aggregator.added := by
    obtain ⟨w, hw, hpoints⟩ := hmade.window
    intro q hq
    rw [hpoints] at hq
    rw [h.aggregator.added]
    exact List.mem_append_left _ (List.mem_flatten.mpr ⟨w, hw, (List.mem_filter.mp hq).1⟩)
  refine ⟨p, h.known p (hadded p hp), hmade.series p hp, _, _,
    h.aggregator.decodes hfollowed r hr p hp, ?_⟩
  rw [Std.ExtTreeMap.getElem?_map, hmade.entry]
  cases (SeriesWindow.ofPoints r.points).fields["effective_bits_sum"]? with
  | none => simp
  | some a => exact rounded_near a.value

private theorem Accounts.exec (M : LogMath) (fuel : ℕ) (cell : Cell K (Observed H) Env In)
    (threading multithreading : Bool) (macIndex ueIndex : ℤ) (as : List (MonitoredStep W V))
    (s : Monitored K (Observed H) Env In W V)
    (hblocks : ∀ tx, (cell.grid tx).rbGrid = fun _ f => { f := f })
    (hlayers : ∀ u ∈ cell.ueList, ∀ tx, (u.pdcp tx).harqBuffer.harqBuffer = [])
    (hrun : exec M fuel { emulator := .make cell threading multithreading macIndex ueIndex } as
      = some s) :
    Accounts { emulator := .make cell threading multithreading macIndex ueIndex } s := by
  have hstart : Accounts { emulator := .make cell threading multithreading macIndex ueIndex }
      ({ emulator := .make cell threading multithreading macIndex ueIndex } :
        Monitored K (Observed H) Env In W V) :=
    { ready := Emulator.ready_make cell threading multithreading macIndex ueIndex
      cell := Cell.sound_new hblocks hlayers
      aggregator := Aggregator.init_sound
      emits := rfl
      built := fun p hp => absurd hp List.not_mem_nil
      known := fun p hp => absurd hp List.not_mem_nil
      sent := fun tx => (sub_self _).symm }
  exact Runs.runAll_inv' (fun _ _ _ h hstep => h.step hstep) hstart hrun

/-- **Whoever listens hears of every bit.**  In every run of the emulator with its monitoring,
with threads or without and however these, the points and the worker of the aggregator
interleave: what the lines have said of a direction, with the points that no line has been
written of, is what the UEs have pushed to their release sides in it, if these are whole bits
that doubles can count; and what a listener decodes from the lines is what they have said, up to
half a millionth of a bit for each line. -/
theorem lines_account_for_bits (M : LogMath) (fuel : ℕ) (cell : Cell K (Observed H) Env In)
    (threading multithreading : Bool) (macIndex ueIndex : ℤ) (as : List (MonitoredStep W V))
    (s : Monitored K (Observed H) Env In W V)
    (hblocks : ∀ tx, (cell.grid tx).rbGrid = fun _ f => { f := f })
    (hlayers : ∀ u ∈ cell.ueList, ∀ tx, (u.pdcp tx).harqBuffer.harqBuffer = [])
    (hrun : exec M fuel { emulator := .make cell threading multithreading macIndex ueIndex } as
      = some s) :
    ∀ tx,
      (Whole "effective_bits_sum" (s.aggregator.added.filter fun p => p.key = macKey tx) →
        s.aggregator.said (macKey tx) "effective_bits_sum" +
          weight (fun p => p.value "effective_bits_sum") (s.waiting tx) =
            (s.emulator.cell.view tx).sentBits - (cell.view tx).sentBits) ∧
      ((∀ p ∈ s.aggregator.added, p.Followed) →
        |weight (fun q => q.value "effective_bits_sum") (s.aggregator.heard tx) -
          s.aggregator.said (macKey tx) "effective_bits_sum"| ≤
            ((s.aggregator.heard tx).length : ℚ) / 2000000) := by
  have haccounts := Accounts.exec M fuel cell threading multithreading macIndex ueIndex as s
    hblocks hlayers hrun
  exact fun tx => ⟨fun hwhole => haccounts.said tx hwhole,
    fun hfollowed => haccounts.heard hfollowed tx⟩

/-- The points of the first step wait while the worker tests, and the second step publishes one
of its points before the worker takes the list and one after. -/
def monitoredRun : List (MonitoredStep (Fin 2) (Fin 2)) :=
  (Emulator.mixedRun.take 1).flatMap (fun x =>
      [.simulate x 1000 0, .publishMac 0, .worker .test, .publishMac 0, .clearSlot]) ++
    (Emulator.mixedRun.drop 1).flatMap fun x =>
      [.simulate x 1000 0, .publishMac 0, .worker .swap, .publishMac 0,
        .worker (.emit (macKey .ul) 0), .worker (.emit (macKey .dl) 0), .worker .loopEnd]

theorem lines_account_for_bits_mixed : ∃ s,
    exec roughMath 5
      { emulator := .make (Emulator.mixedCell PdcpLayer.observe) true true 0 0 } monitoredRun =
        some s ∧
    s.aggregator.said (macKey .dl) "effective_bits_sum" = 400 ∧
    weight (fun p => p.value "effective_bits_sum") (s.waiting .ul) = 400 ∧
    ∀ tx, s.aggregator.said (macKey tx) "effective_bits_sum" +
        weight (fun p => p.value "effective_bits_sum") (s.waiting tx) =
          (s.emulator.cell.view tx).sentBits -
            ((Emulator.mixedCell PdcpLayer.observe).view tx).sentBits ∧
      |weight (fun q => q.value "effective_bits_sum") (s.aggregator.heard tx) -
          s.aggregator.said (macKey tx) "effective_bits_sum"| ≤
        ((s.aggregator.heard tx).length : ℚ) / 2000000 := by
  have hlayers : ∀ u ∈ (Emulator.mixedCell PdcpLayer.observe).ueList, ∀ tx,
      (u.pdcp tx).harqBuffer.harqBuffer = [] := by
    intro u hu tx
    rcases List.mem_pair.mp hu with rfl | rfl
    · cases tx <;> rfl
    · cases tx <;> rfl
  have hblocks : ∀ tx, ((Emulator.mixedCell PdcpLayer.observe).grid tx).rbGrid =
      fun _ f => { f := f } := by
    intro tx
    cases tx <;> rfl
  refine Runs.exists_of_view (fun s =>
    (s.aggregator.said (macKey .dl) "effective_bits_sum",
      decide (∀ p ∈ s.aggregator.added, p.measurement = "mac_scheduler" ∧ 0 < p.tsNs),
      weight (fun p => p.value "effective_bits_sum") (s.waiting .ul),
      [Direction.dl, .ul].map fun tx =>
        (s.aggregator.added.filter fun p => p.key = macKey tx).map fun p =>
          p.value "effective_bits_sum"))
    (x := (400, true, 400, [[0, 400], [0, 400]])) (by decide +kernel) fun s hs hview => ?_
  obtain ⟨hsaid, htimed, hwaiting, hvalues⟩ : _ ∧ _ ∧ _ ∧ _ := by
    simpa only [Prod.mk.injEq, decide_eq_true_eq] using hview
  have haccounts := Accounts.exec roughMath 5 (Emulator.mixedCell PdcpLayer.observe) true true 0 0
    monitoredRun s hblocks hlayers hs
  have hfollowed : ∀ p ∈ s.aggregator.added, p.Followed := fun p hp =>
    (haccounts.known p hp).followed (htimed p hp).1 (htimed p hp).2
  have hbits := lines_account_for_bits roughMath 5 (Emulator.mixedCell PdcpLayer.observe) true true
    0 0 monitoredRun s hblocks hlayers hs
  have hwhole : ∀ tx, Whole "effective_bits_sum"
      (s.aggregator.added.filter fun p => p.key = macKey tx) := by
    intro tx
    have hlist : (s.aggregator.added.filter fun p => p.key = macKey tx).map
        (fun p => p.value "effective_bits_sum") = [0, 400] := by
      cases tx
      · exact congrArg (fun l => l.getD 0 []) hvalues
      · exact congrArg (fun l => l.getD 1 []) hvalues
    refine ⟨fun p hp => ?_, ?_⟩
    · have hmem := List.mem_map_of_mem (f := fun p => p.value "effective_bits_sum") hp
      rw [hlist] at hmem
      rcases List.mem_pair.mp hmem with h | h
      · exact ⟨0, h.symm⟩
      · exact ⟨400, h.symm⟩
    · rw [weight, hlist]
      norm_num
  exact ⟨hsaid, hwaiting, fun tx => ⟨(hbits tx).1 (hwhole tx), (hbits tx).2 hfollowed⟩⟩

end Emulation.Monitored

end NetworkEmulator
