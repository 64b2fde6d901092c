/-
Which points the aggregator reports.

A window's line is what its points come to, and the points of a line are those of one series
in one window the worker took.  What the worker has emitted and what it has still to emit
are together the windows it took (`Sound.reported`), so no point is lost between the swap
and the end of the loop, or reported twice.

What is lost is what the worker never takes.  It swaps after its sleep and tests `running`
after it has emitted, so a shutdown during the sleep is followed by one more swap, and a
shutdown at any other place by none: the points added since the last swap stay behind.

A line is right where the points of its series add up as doubles (`Report.Made.right_iff`).
-/
import NetworkEmulator.Proofs.Accumulation

namespace NetworkEmulator

/-! ### Reports -/

/-- What a report is to be, with `closed` the windows the worker took. -/
structure Report.Right (r : Report) (closed : List (List MetricPoint)) : Prop where
  /-- It is about all the points of its series in one window. -/
  window : ∃ w ∈ closed, r.points = w.filter (·.key = r.key)
  /-- It is a line of the series of its points. -/
  header : ∀ p ∈ r.points, '|' ∉ p.measurement.toList →
    r.line.measurement = p.measurement ∧ r.line.tags = p.tagText
  /-- It has the fields of its points, each once. -/
  names : ∀ name, name ∈ r.line.fields.map Prod.fst ↔ ∃ p ∈ r.points, name ∈ p.fields
  once : (r.line.fields.map Prod.fst).Nodup
  /-- Every field carries what its kind is to carry for its samples. -/
  values : ∀ f ∈ r.line.fields, ∃ kind, (∀ x ∈ samples f.1 r.points, x.1.aggregation = kind) ∧
    kind.Carries (samples f.1 r.points) f.2
  /-- Its time is that of the latest point. -/
  latest : ∃ p ∈ r.points, p.tsNs = r.line.tsNs ∧ ∀ q ∈ r.points, q.tsNs ≤ p.tsNs
  /-- The points in any other order give the same line. -/
  order : ∀ ps : List MetricPoint, ps.Perm r.points → ∀ now,
    (SeriesWindow.ofPoints ps).line r.key now = some r.line

/-- How a report comes about. -/
structure Report.Made (r : Report) (closed : List (List MetricPoint)) : Prop where
  window : ∃ w ∈ closed, r.points = w.filter (·.key = r.key)
  nonempty : r.points ≠ []
  line : ∃ now, (SeriesWindow.ofPoints r.points).line r.key now = some r.line

theorem Report.Made.series {r : Report} {closed : List (List MetricPoint)} (h : r.Made closed) :
    ∀ p ∈ r.points, p.key = r.key := by
  obtain ⟨w, -, hw⟩ := h.window
  intro p hp
  rw [hw] at hp
  exact of_decide_eq_true (List.mem_filter.mp hp).2

theorem Report.Made.mono {r : Report} {closed : List (List MetricPoint)} (h : r.Made closed)
    (w : List MetricPoint) : r.Made (closed ++ [w]) := by
  obtain ⟨v, hv, hpoints⟩ := h.window
  exact ⟨⟨v, List.mem_append_left _ hv, hpoints⟩, h.nonempty, h.line⟩

theorem line_eq_some {series : SeriesWindow} {key : String} {now : ℤ} {line : Line}
    (h : series.line key now = some line) : line.measurement = keyMeasurement key ∧
      line.tags = keyTags key ∧ line.fields = series.fields.toList.map (fun f => (f.1, f.2.value)) ∧
      line.tsNs = if 0 < series.latestTsNs then series.latestTsNs else now := by
  unfold SeriesWindow.line at h
  split at h
  · cases h
  · obtain rfl := Option.some.inj h
    exact ⟨rfl, rfl, rfl, rfl⟩

/-- A line has the fields of its points, with what their samples come to. -/
private theorem mem_line_fields {ps : List MetricPoint} {key : String} {now : ℤ} {line : Line}
    (h : (SeriesWindow.ofPoints ps).line key now = some line) (name : String) (v : ℚ) :
    (name, v) ∈ line.fields ↔ samples name ps ≠ [] ∧
      v = (WindowAccum.ofSamples (samples name ps)).value := by
  obtain ⟨-, -, hfields, -⟩ := line_eq_some h
  rw [hfields, List.mem_map]
  constructor
  · rintro ⟨⟨name', a⟩, ha, heq⟩
    obtain ⟨rfl, rfl⟩ := Prod.mk.inj heq
    rw [Std.ExtTreeMap.mem_toList_iff_getElem?_eq_some,
      SeriesWindow.getElem?_fields_ofPoints] at ha
    obtain ⟨hne, hsome⟩ := Option.ite_none_left_eq_some.mp ha
    exact ⟨hne, by rw [Option.some.inj hsome]⟩
  · rintro ⟨hne, rfl⟩
    refine ⟨(name, WindowAccum.ofSamples (samples name ps)), ?_, rfl⟩
    rw [Std.ExtTreeMap.mem_toList_iff_getElem?_eq_some, SeriesWindow.getElem?_fields_ofPoints,
      if_neg hne]

/-- **A report of well-kept points is right where they add up.** -/
theorem Report.Made.right {r : Report} {closed : List (List MetricPoint)} (h : r.Made closed)
    (hkept : WellKept r.points) (hadds : AddsUp r.points) : r.Right closed := by
  obtain ⟨now, hline⟩ := h.line
  obtain ⟨hmeasurement, htags, hfields, hts⟩ := line_eq_some hline
  have hmem := mem_line_fields hline
  have hnames : r.line.fields.map Prod.fst =
      (SeriesWindow.ofPoints r.points).fields.toList.map Prod.fst := by
    rw [hfields, List.map_map]
    rfl
  have hlatest := (latest_ofPoints hkept.positive).resolve_left fun hnil => h.nonempty hnil.1
  refine { window := h.window, header := ?_, names := ?_, once := ?_, values := ?_,
           latest := ?_, order := ?_ }
  · intro p hp hbar
    rw [hmeasurement, htags, ← h.series p hp]
    exact key_split hbar
  · intro name
    rw [← samples_ne_nil, List.mem_map]
    constructor
    · rintro ⟨⟨name', v⟩, hf, rfl⟩
      exact ((hmem _ v).mp hf).1
    · intro hne
      exact ⟨(name, _), (hmem name _).mpr ⟨hne, rfl⟩, rfl⟩
  · rw [hnames]
    refine List.pairwise_map.mpr (Std.ExtTreeMap.distinct_keys_toList.imp fun hne heq => hne ?_)
    rw [heq]
    exact Std.ReflCmp.compare_self
  · rintro ⟨name, v⟩ hf
    obtain ⟨hne, rfl⟩ := (hmem name v).mp hf
    obtain ⟨kind, hkind⟩ := samples_kind hkept
    exact ⟨kind, hkind, (WindowAccum.carries_ofSamples_iff hkind (samples_pos hkept) hne).mpr
      (hadds r.points (.refl _) name kind hkind)⟩
  · obtain ⟨p, hp, htsp, hmax⟩ := hlatest
    have hpos : 0 < (SeriesWindow.ofPoints r.points).latestTsNs := htsp ▸ hkept.positive p hp
    exact ⟨p, hp, by rw [hts, if_pos hpos, htsp], hmax⟩
  · intro ps hperm now'
    rw [line_perm hkept h.series hadds h.nonempty hperm now' now]
    exact hline

/-- The points of a right report add up: each order of them has a line of its own, and it is the
line of the report. -/
theorem Report.Right.addsUp {r : Report} {closed : List (List MetricPoint)} (h : r.Right closed)
    (hkept : WellKept r.points) : AddsUp r.points := by
  intro qs hperm name kind hkind
  have hsamples : (samples name qs).Perm (samples name r.points) := hperm.filterMap _
  by_cases hne : samples name qs = []
  · rw [hne]
    exact kind.addsUp_nil
  have hpos : ∀ x ∈ samples name qs, 0 < x.2 := fun x hx =>
    samples_pos hkept x (hsamples.subset hx)
  have hfield := (mem_line_fields (h.order qs hperm 0) name _).mpr ⟨hne, rfl⟩
  obtain ⟨kind', hkind', hcarries⟩ := h.values _ hfield
  -- A field that has a sample has one kind.
  obtain ⟨x, hx⟩ := List.exists_mem_of_ne_nil _ hne
  obtain rfl : kind' = kind := (hkind' x (hsamples.subset hx)).symm.trans (hkind x hx)
  exact (WindowAccum.carries_ofSamples_iff hkind hpos hne).mp (hcarries.perm hsamples.symm)

namespace Aggregator

/-! ### One step -/

/-- What a step can be. -/
private theorem step_cases {s s' : Aggregator} {a : AggregatorStep} (h : s.step a = some s') :
    (∃ p, s' = s.addPoint p) ∨
    (s.worker = .testing ∧ s' = { s with worker := if s.running then .sleeping else .exited }) ∨
    (s.worker = .sleeping ∧ s' = s.swap) ∨
    (∃ snapshot key series now, s.worker = .emitting snapshot ∧ snapshot[key]? = some series ∧
      s' = s.emit snapshot key series now) ∨
    (∃ snapshot, s.worker = .emitting snapshot ∧ snapshot.isEmpty ∧
      s' = { s with worker := .testing }) ∨
    s' = { s with running := false } := by
  cases a with
  | addPoint p => exact Or.inl ⟨p, (Option.some.inj h).symm⟩
  | test =>
      simp only [step] at h
      split at h
      · rename_i hw
        exact Or.inr (Or.inl ⟨hw, (Option.some.inj h).symm⟩)
      · cases h
  | swap =>
      simp only [step] at h
      split at h
      · rename_i hw
        exact Or.inr (Or.inr (Or.inl ⟨hw, (Option.some.inj h).symm⟩))
      · cases h
  | emit key now =>
      simp only [step] at h
      split at h
      · rename_i snapshot hw
        obtain ⟨series, hseries, hs⟩ := Option.map_eq_some_iff.mp h
        exact Or.inr (Or.inr (Or.inr (Or.inl ⟨snapshot, key, series, now, hw, hseries, hs.symm⟩)))
      · cases h
  | loopEnd =>
      simp only [step] at h
      split at h
      · rename_i snapshot hw
        obtain ⟨hempty, hs⟩ := Option.ite_none_right_eq_some.mp h
        exact Or.inr (Or.inr (Or.inr (Or.inr (Or.inl
          ⟨snapshot, hw, hempty, (Option.some.inj hs).symm⟩))))
      · cases h
  | shutdown => exact Or.inr (Or.inr (Or.inr (Or.inr (Or.inr (Option.some.inj h).symm))))

/-- The points the worker has taken and not reported. -/
def pending (s : Aggregator) : List MetricPoint :=
  match s.worker with
  | .emitting snapshot => s.taken.filter fun p => snapshot.contains p.key
  | _ => []

/-- **What holds of the aggregator between two steps.** -/
structure Sound (s : Aggregator) : Prop where
  /-- The accumulators are what the points since the last swap come to. -/
  accum : s.accum = Accum.ofPoints s.window
  added : s.added = s.closed.flatten ++ s.window
  fields : ∀ p ∈ s.added, p.fields.isEmpty = false
  /-- What the worker has not emitted comes from the window it took last. -/
  snapshot : ∀ snapshot, s.worker = .emitting snapshot → s.taken ∈ s.closed ∧
    ∀ (key : String) (series : SeriesWindow), snapshot[key]? = some series →
      (Accum.ofPoints s.taken)[key]? = some series
  /-- Reported or pending: every point the worker took is one of the two, once. -/
  reported : (s.emitted.flatMap (·.points) ++ s.pending).Perm s.closed.flatten
  made : ∀ r ∈ s.emitted, r.Made s.closed

variable {s s' : Aggregator}

theorem Sound.addPoint (h : s.Sound) (p : MetricPoint) : (s.addPoint p).Sound := by
  unfold Aggregator.addPoint
  by_cases hp : p.fields.isEmpty = true
  · rw [if_pos hp]
    exact h
  · rw [if_neg hp]
    refine { accum := ?_, added := ?_, fields := ?_, snapshot := h.snapshot
             reported := h.reported, made := h.made }
    · rw [Accum.ofPoints_concat, ← h.accum]
    · show s.added ++ [p] = s.closed.flatten ++ (s.window ++ [p])
      rw [h.added, List.append_assoc]
    · intro q hq
      rcases List.mem_append.mp hq with hq | hq
      · exact h.fields q hq
      · rw [List.mem_singleton.mp hq]
        exact Bool.eq_false_of_not_eq_true hp

/-- The worker moves, and has nothing to emit before or after. -/
private theorem Sound.move (h : s.Sound) {pc : AggregatorPc} (hpending : s.pending = [])
    (hpc : ∀ snapshot, pc ≠ .emitting snapshot) : ({ s with worker := pc } : Aggregator).Sound := by
  have hnone : ({ s with worker := pc } : Aggregator).pending = [] := by
    unfold pending
    split
    · rename_i snapshot hw
      exact absurd hw (hpc snapshot)
    · rfl
  refine { accum := h.accum, added := h.added, fields := h.fields
           snapshot := fun snapshot hw => absurd hw (hpc snapshot), reported := ?_
           made := h.made }
  rw [hnone, ← hpending]
  exact h.reported

private theorem Sound.swap (h : s.Sound) (hw : s.worker = .sleeping) : s.swap.Sound := by
  have htaken : s.swap.taken = s.window := List.getLastD_concat ..
  have hpending : s.swap.pending = s.window := by
    show (s.swap.taken.filter fun p => s.accum.contains p.key) = s.window
    rw [htaken, List.filter_eq_self]
    intro p hp
    have hmem : p ∈ s.window.filter (·.key = p.key) := List.mem_filter.mpr ⟨hp, by simp⟩
    rw [Std.ExtTreeMap.contains_eq_isSome_getElem?, h.accum, Accum.getElem?_ofPoints,
      if_neg (List.ne_nil_of_mem hmem)]
    rfl
  have hnone : s.pending = [] := by rw [pending, hw]
  refine { accum := rfl, added := ?_, fields := h.fields, snapshot := ?_, reported := ?_
           made := fun r hr => (h.made r hr).mono _ }
  · show s.added = (s.closed ++ [s.window]).flatten ++ []
    rw [h.added, List.flatten_concat, List.append_nil]
  · intro snapshot hsnap
    obtain rfl := AggregatorPc.emitting.inj hsnap
    rw [htaken]
    refine ⟨List.mem_append_right _ (List.mem_singleton_self _), fun key series hseries => ?_⟩
    rw [← h.accum]
    exact hseries
  · have hreported := h.reported
    rw [hnone, List.append_nil] at hreported
    rw [hpending]
    show (s.emitted.flatMap (·.points) ++ s.window).Perm (s.closed ++ [s.window]).flatten
    rw [List.flatten_concat]
    exact hreported.append_right _

/-- The points pending for a key, and those pending for the others. -/
private theorem filter_erase (snapshot : Accum) (key : String) (hkey : snapshot.contains key)
    (ps : List MetricPoint) : (ps.filter (·.key = key) ++
      ps.filter fun p => (snapshot.erase key).contains p.key).Perm
        (ps.filter fun p => snapshot.contains p.key) := by
  refine .trans (.of_eq ?_) (List.filter_append_perm (·.key = key) _)
  rw [List.filter_filter, List.filter_filter]
  congr 1
  · refine List.filter_congr fun p _ => ?_
    by_cases h : p.key = key
    · simp [h, hkey]
    · simp [h]
  · refine List.filter_congr fun p _ => ?_
    rw [Std.ExtTreeMap.contains_erase]
    by_cases h : p.key = key
    · simp [h]
    · simp [h, Ne.symm h]

/-- The worker emits a series: the points of the window that were pending for its key. -/
private theorem Sound.emit (h : s.Sound) {snapshot : Accum} {key : String} {series : SeriesWindow}
    (now : ℤ) (hw : s.worker = .emitting snapshot) (hseries : snapshot[key]? = some series) :
    (s.emit snapshot key series now).Sound ∧
      ∃ r : Report, s.emit snapshot key series now =
        { s with worker := .emitting (snapshot.erase key), emitted := s.emitted ++ [r] } := by
  obtain ⟨htaken, hsnapshot⟩ := h.snapshot snapshot hw
  have hgroup := hsnapshot key series hseries
  rw [Accum.getElem?_ofPoints] at hgroup
  obtain ⟨hne, hsome⟩ := Option.ite_none_left_eq_some.mp hgroup
  obtain rfl := Option.some.inj hsome
  have hfields : ∀ p ∈ s.taken.filter (·.key = key), p.fields.isEmpty = false := by
    intro p hp
    refine h.fields p ?_
    rw [h.added]
    exact List.mem_append_left _ (List.mem_flatten.mpr ⟨_, htaken, (List.mem_filter.mp hp).1⟩)
  obtain ⟨line, hline⟩ := exists_line hne hfields key now
  have hemit : s.emit snapshot key (SeriesWindow.ofPoints (s.taken.filter (·.key = key))) now =
      { s with worker := .emitting (snapshot.erase key)
               emitted := s.emitted ++ [⟨key, line, s.taken.filter (·.key = key)⟩] } := by
    unfold Aggregator.emit
    rw [hline]
    rfl
  refine ⟨?_, _, hemit⟩
  rw [hemit]
  refine { accum := h.accum, added := h.added, fields := h.fields, snapshot := ?_, reported := ?_
           made := ?_ }
  · intro snapshot' hw'
    obtain rfl := AggregatorPc.emitting.inj hw'
    refine ⟨htaken, fun key' series' hseries' => hsnapshot key' series' ?_⟩
    rw [Std.ExtTreeMap.getElem?_erase] at hseries'
    exact (Option.ite_none_left_eq_some.mp hseries').2
  · have hcontains : snapshot.contains key := by
      rw [Std.ExtTreeMap.contains_eq_isSome_getElem?, hseries]
      rfl
    have hreported := h.reported
    rw [pending, hw] at hreported
    show ((s.emitted ++ [_]).flatMap Report.points ++
      s.taken.filter fun p => (snapshot.erase key).contains p.key).Perm _
    rw [List.flatMap_append, List.flatMap_singleton, List.append_assoc]
    exact ((filter_erase snapshot key hcontains _).append_left _).trans hreported
  · intro r hr
    rcases List.mem_append.mp hr with hr | hr
    · exact h.made r hr
    · rw [List.mem_singleton.mp hr]
      exact { window := ⟨s.taken, htaken, rfl⟩, nonempty := hne, line := ⟨now, hline⟩ }

/-- **Every step of every thread keeps the invariant.** -/
theorem Sound.step {a : AggregatorStep} (h : s.Sound) (hstep : s.step a = some s') :
    s'.Sound := by
  obtain ⟨p, rfl⟩ | ⟨hw, rfl⟩ | ⟨hw, rfl⟩ | ⟨snapshot, key, series, now, hw, hseries, rfl⟩ |
    ⟨snapshot, hw, hempty, rfl⟩ | rfl := step_cases hstep
  · exact h.addPoint p
  · refine h.move (by rw [pending, hw]) fun snapshot => ?_
    split <;> exact AggregatorPc.noConfusion
  · exact h.swap hw
  · exact (h.emit now hw hseries).1
  · refine h.move ?_ fun snapshot => AggregatorPc.noConfusion
    rw [pending, hw, Std.ExtTreeMap.isEmpty_iff.mp hempty]
    exact List.filter_eq_nil_iff.mpr fun p _ => by simp
  · exact { h with }

theorem init_sound : ({} : Aggregator).Sound where
  accum := rfl
  added := rfl
  fields p hp := by cases hp
  snapshot snapshot hw := by cases hw
  reported := .nil
  made r hr := by cases hr

/-! ### After the shutdown -/

/-- No more point is taken: the worker is past its last swap. -/
private structure Past (s₀ s : Aggregator) : Prop where
  running : s.running = false
  worker : s.worker ≠ .sleeping
  closed : s.closed = s₀.closed
  added : s₀.added <+: s.added

/-- The worker has its last swap before it, or has taken what was added before. -/
private structure Flushing (s₀ s : Aggregator) : Prop where
  running : s.running = false
  added : s₀.added ⊆ s.added
  flushed : s.worker ≠ .sleeping → s₀.added ⊆ s.closed.flatten

private theorem Past.step {s₀ : Aggregator} {a : AggregatorStep} (h : Past s₀ s) (hs : s.Sound)
    (hstep : s.step a = some s') : Past s₀ s' := by
  obtain ⟨p, rfl⟩ | ⟨hw, rfl⟩ | ⟨hw, rfl⟩ | ⟨snapshot, key, series, now, hw, hseries, rfl⟩ |
    ⟨snapshot, hw, hempty, rfl⟩ | rfl := step_cases hstep
  · unfold Aggregator.addPoint
    split
    · exact h
    · exact { running := h.running, worker := h.worker, closed := h.closed
              added := h.added.trans (List.prefix_append ..) }
  · rw [h.running, if_neg Bool.false_ne_true]
    exact { running := rfl, worker := AggregatorPc.noConfusion, closed := h.closed
            added := h.added }
  · exact absurd hw h.worker
  · obtain ⟨r, hr⟩ := (hs.emit now hw hseries).2
    rw [hr]
    exact { running := h.running, worker := AggregatorPc.noConfusion, closed := h.closed
            added := h.added }
  · exact { running := h.running, worker := AggregatorPc.noConfusion, closed := h.closed
            added := h.added }
  · exact { running := rfl, worker := h.worker, closed := h.closed
            added := h.added }

private theorem Flushing.step {s₀ : Aggregator} {a : AggregatorStep} (h : Flushing s₀ s)
    (hs : s.Sound) (hstep : s.step a = some s') : Flushing s₀ s' := by
  obtain ⟨p, rfl⟩ | ⟨hw, rfl⟩ | ⟨hw, rfl⟩ | ⟨snapshot, key, series, now, hw, hseries, rfl⟩ |
    ⟨snapshot, hw, hempty, rfl⟩ | rfl := step_cases hstep
  · unfold Aggregator.addPoint
    split
    · exact h
    · exact { running := h.running, flushed := h.flushed
              added := fun q hq => List.mem_append_left _ (h.added hq) }
  · have hflushed := h.flushed (by rw [hw]; exact AggregatorPc.noConfusion)
    exact { running := h.running, added := h.added, flushed := fun _ => hflushed }
  · -- The swap takes all that was added.
    refine { running := h.running, added := h.added, flushed := fun _ q hq => ?_ }
    show q ∈ (s.closed ++ [s.window]).flatten
    rw [List.flatten_concat, ← hs.added]
    exact h.added hq
  · have hflushed := h.flushed (by rw [hw]; exact AggregatorPc.noConfusion)
    obtain ⟨r, hr⟩ := (hs.emit now hw hseries).2
    rw [hr]
    exact { running := h.running, added := h.added, flushed := fun _ => hflushed }
  · have hflushed := h.flushed (by rw [hw]; exact AggregatorPc.noConfusion)
    exact { running := h.running, added := h.added, flushed := fun _ => hflushed }
  · exact { running := rfl, added := h.added, flushed := h.flushed }

/-! ### Runs -/

theorem exec_sound {as : List AggregatorStep} (hs : s.Sound) (hrun : s.exec as = some s') :
    s'.Sound := Runs.runAll_inv' (I := Sound) (fun _ _ _ h hstep => h.step hstep) hs hrun

/-- The point is among those of exactly one emitted line. -/
def ReportedOnce (s : Aggregator) (p : MetricPoint) : Prop :=
  s.emitted.countP (fun r => p ∈ r.points) = 1

instance (s : Aggregator) (p : MetricPoint) : Decidable (s.ReportedOnce p) :=
  inferInstanceAs (Decidable (_ = 1))

/-- The points of a line are distinct, so the lines of a point are its occurrences. -/
private theorem countP_points {rs : List Report} (hnodup : ∀ r ∈ rs, r.points.Nodup)
    (p : MetricPoint) :
    rs.countP (fun r => p ∈ r.points) = (rs.flatMap (·.points)).count p := by
  induction rs with
  | nil => rfl
  | cons r rest ih =>
      rw [List.countP_cons, List.flatMap_cons, List.count_append,
        ih fun r hr => hnodup r (List.mem_cons_of_mem _ hr)]
      have hr := hnodup r (List.mem_cons_self ..)
      by_cases hp : p ∈ r.points
      · rw [List.count_eq_one_of_mem hr hp]
        simp [hp, Nat.add_comm]
      · rw [List.count_eq_zero_of_not_mem hp]
        simp [hp]

/-- What an aggregator whose worker has returned has reported: the windows it took. -/
private theorem Sound.countP_eq (h : s.Sound) (hexit : s.worker = .exited)
    (hnodup : s.added.Nodup) (p : MetricPoint) :
    s.emitted.countP (fun r => p ∈ r.points) = if p ∈ s.closed.flatten then 1 else 0 := by
  have hreported := h.reported
  rw [pending, hexit, List.append_nil] at hreported
  have hflat : s.closed.flatten.Nodup := by
    rw [h.added] at hnodup
    exact (List.nodup_append.mp hnodup).1
  have hpoints : ∀ r ∈ s.emitted, r.points.Nodup := by
    intro r hr
    obtain ⟨w, hw, hr⟩ := (h.made r hr).window
    rw [hr]
    exact ((List.sublist_flatten_of_mem hw).nodup hflat).filter _
  rw [countP_points hpoints, hreported.count_eq]
  split
  · rename_i hp
    exact List.count_eq_one_of_mem hflat hp
  · rename_i hp
    exact List.count_eq_zero_of_not_mem hp

/-- What an aggregator whose worker has returned has reported of a series of a window. -/
private theorem Sound.exists_report (h : s.Sound) (hexit : s.worker = .exited)
    (hnodup : s.added.Nodup) {w : List MetricPoint} (hw : w ∈ s.closed) {key : String}
    (hne : w.filter (·.key = key) ≠ []) : ∃ r ∈ s.emitted, r.points = w.filter (·.key = key) := by
  have hreported := h.reported
  rw [pending, hexit, List.append_nil] at hreported
  have hflat : s.closed.flatten.Nodup := by
    rw [h.added] at hnodup
    exact (List.nodup_append.mp hnodup).1
  obtain ⟨p, hp⟩ := List.exists_mem_of_ne_nil _ hne
  obtain ⟨hpw, hkey⟩ := List.mem_filter.mp hp
  obtain ⟨r, hr, hpr⟩ := List.mem_flatMap.mp
    (hreported.symm.subset (List.mem_flatten.mpr ⟨w, hw, hpw⟩))
  have hmade := h.made r hr
  obtain ⟨v, hv, hpoints⟩ := hmade.window
  -- The point is in one window only.
  have hpv : p ∈ v := by
    rw [hpoints] at hpr
    exact (List.mem_filter.mp hpr).1
  obtain rfl : v = w := by
    by_contra hdiff
    have hsymm : Std.Symm (List.Disjoint (α := MetricPoint)) :=
      { symm := fun _ _ => List.disjoint_symm }
    exact (List.nodup_flatten.mp hflat).2.forall hv hw hdiff hpv hpw
  refine ⟨r, hr, hpoints.trans ?_⟩
  rw [← hmade.series p hpr, of_decide_eq_true hkey]

/-- **What the aggregator reports.**  In every run of an aggregator that is shut down and
whose worker returns, however the additions, the swaps, the lines and the shutdown interleave:
every line is right exactly when the points of every series in every window add up as doubles,
no point is in two lines, and every point added before the shutdown is in one exactly when the
shutdown finds the worker asleep or nothing accumulated. -/
theorem reportedOnce_iff (pre post : List AggregatorStep) (s s' : Aggregator)
    (hpre : exec {} pre = some s) (hpost : s.exec (.shutdown :: post) = some s')
    (hexit : s'.worker = .exited) (hkept : WellKept s'.added) :
    ((∀ r ∈ s'.emitted, r.Right s'.closed) ↔
        ∀ w ∈ s'.closed, ∀ key, AddsUp (w.filter (·.key = key))) ∧
      s'.added = s'.closed.flatten ++ s'.window ∧
      (∀ p, s'.emitted.countP (fun r => p ∈ r.points) ≤ 1) ∧
      ((∀ p ∈ s.added, s'.ReportedOnce p) ↔ s.worker = .sleeping ∨ s.accum.isEmpty) := by
  have hs : s.Sound := exec_sound init_sound hpre
  have hs' : s'.Sound := exec_sound hs hpost
  have hcount := hs'.countP_eq hexit hkept.nodup
  have hpoints : ∀ r ∈ s'.emitted, WellKept r.points := fun r hr => by
    obtain ⟨w, hw, hr⟩ := (hs'.made r hr).window
    rw [hs'.added] at hkept
    refine hkept.sublist (hr ▸ List.filter_sublist.trans ?_)
    exact (List.sublist_flatten_of_mem hw).trans (List.sublist_append_left ..)
  refine ⟨⟨fun hright w hw key => ?_, fun hadds r hr => ?_⟩, hs'.added, fun p => ?_, ?_⟩
  · by_cases hne : w.filter (·.key = key) = []
    · rw [hne]
      exact addsUp_nil
    · obtain ⟨r, hr, hseries⟩ := hs'.exists_report hexit hkept.nodup hw hne
      exact hseries ▸ (hright r hr).addsUp (hpoints r hr)
  · obtain ⟨w, hw, hseries⟩ := (hs'.made r hr).window
    exact (hs'.made r hr).right (hpoints r hr) (hseries ▸ hadds w hw r.key)
  · rw [hcount p]
    split <;> omega
  -- The state the shutdown leaves.
  have hpost : Runs.runAll step { s with running := false } post = some s' := hpost
  have hdown : ({ s with running := false } : Aggregator).Sound := { hs with }
  have hempty : s.accum.isEmpty = true ↔ s.window = [] := by
    rw [hs.accum, Std.ExtTreeMap.isEmpty_iff]
    exact Accum.ofPoints_eq_empty
  constructor
  · intro hall
    by_contra hno
    obtain ⟨hawake, hfull⟩ := not_or.mp hno
    have hstart : Past s { s with running := false } :=
      { running := rfl, worker := hawake, closed := rfl, added := List.prefix_rfl }
    have hpast : s'.Sound ∧ Past s s' :=
      Runs.runAll_inv' (I := fun x => x.Sound ∧ Past s x)
        (fun _ _ _ h hstep => ⟨h.1.step hstep, h.2.step h.1 hstep⟩) ⟨hdown, hstart⟩ hpost
    -- A point the worker never takes.
    obtain ⟨p, hp⟩ := List.exists_mem_of_ne_nil _ fun hnil => hfull (hempty.mpr hnil)
    have hnodup : s.added.Nodup := hpast.2.added.sublist.nodup hkept.nodup
    rw [hs.added] at hnodup
    have hnot : p ∉ s'.closed.flatten := fun hmem =>
      (List.nodup_append.mp hnodup).2.2 p (hpast.2.closed ▸ hmem) p hp rfl
    have hone := hall p (by rw [hs.added]; exact List.mem_append_right _ hp)
    rw [ReportedOnce, hcount p, if_neg hnot] at hone
    exact Nat.zero_ne_one hone
  · intro hcond p hp
    have hstart : Flushing s { s with running := false } := by
      refine { running := rfl, added := List.Subset.refl _, flushed := fun hawake q hq => ?_ }
      rcases hcond with hasleep | hnone
      · exact absurd hasleep hawake
      · rw [hs.added, hempty.mp hnone, List.append_nil] at hq
        exact hq
    have hflush : s'.Sound ∧ Flushing s s' :=
      Runs.runAll_inv' (I := fun x => x.Sound ∧ Flushing s x)
        (fun _ _ _ h hstep => ⟨h.1.step hstep, h.2.step h.1 hstep⟩) ⟨hdown, hstart⟩ hpost
    rw [ReportedOnce, hcount p]
    exact if_pos (hflush.2.flushed (by rw [hexit]; exact AggregatorPc.noConfusion) hp)

/-- Points of one series with one field. -/
private def points (kind : FieldAggregation) (l : List (ℚ × ℤ)) : List MetricPoint :=
  l.map fun x => { measurement := "mac", tags := {("ue", "1")}, fields := {("bits", ⟨x.1, kind⟩)}
                   tsNs := x.2 }

private theorem wellKept_points {kind : FieldAggregation} {l : List (ℚ × ℤ)}
    (hpos : ∀ x ∈ l, 0 < x.2) (hdistinct : l.Pairwise fun x y => x.2 ≠ y.2) :
    WellKept (points kind l) := by
  have hkind : ∀ p ∈ points kind l, ∀ (name : String) (f : MetricField),
      p.fields[name]? = some f → f.aggregation = kind := by
    intro p hp name f hf
    obtain ⟨x, -, rfl⟩ := List.mem_map.mp hp
    change (Std.ExtTreeMap.insert ∅ "bits" _ : Std.ExtTreeMap String MetricField compare)[name]? = _
      at hf
    rw [Std.ExtTreeMap.getElem?_insert] at hf
    split at hf
    · rw [← Option.some.inj hf]
    · rw [Std.ExtTreeMap.getElem?_empty] at hf
      cases hf
  refine { kind := fun p hp q hq name f g hf hg => ?_, positive := fun p hp => ?_
           distinct := List.pairwise_map.mpr (hdistinct.imp fun hne _ heq => hne heq) }
  · rw [hkind p hp name f hf, hkind q hq name g hg]
  · obtain ⟨x, hx, rfl⟩ := List.mem_map.mp hp
    exact hpos x hx

private theorem samples_points (name : String) (kind : FieldAggregation) (l : List (ℚ × ℤ)) :
    samples name (points kind l) =
      if name = "bits" then l.map fun x => (⟨x.1, kind⟩, x.2) else [] := by
  induction l with
  | nil => split <;> rfl
  | cons x rest ih =>
      have hfield : ({("bits", ⟨x.1, kind⟩)} : Std.ExtTreeMap String MetricField compare)[name]? =
          if "bits" = name then some ⟨x.1, kind⟩ else none := by
        change (Std.ExtTreeMap.insert ∅ "bits" _ : Std.ExtTreeMap String MetricField compare)[name]?
          = _
        rw [Std.ExtTreeMap.getElem?_insert, Std.ExtTreeMap.getElem?_empty]
        simp
      rw [points, List.map_cons, ← points, samples, List.filterMap_cons, ← samples, ih, hfield]
      by_cases hname : name = "bits"
      · subst hname
        simp
      · simp [hname, Ne.symm hname]

private theorem addsUp_points {kind : FieldAggregation} {l : List (ℚ × ℤ)}
    (hwhole : ∀ x ∈ l, ∃ n : ℤ, (n : ℚ) = x.1) (hsmall : (l.map fun x => |x.1|).sum ≤ 2 ^ 53)
    {ps : List MetricPoint} (hsub : ps.Sublist (points kind l)) : AddsUp ps := by
  refine addsUp_of_whole hsub (fun name x hx => ?_) fun name => ?_
  · rw [samples_points] at hx
    split at hx
    · obtain ⟨y, hy, rfl⟩ := List.mem_map.mp hx
      exact hwhole y hy
    · cases hx
  · rw [samples_points]
    split
    · rw [List.map_map]
      exact hsmall
    · simp

/-- Two points of a series in one window, and the shutdown during the next sleep. -/
theorem reportedOnce_two :
    let ps := points .sum [(3, 20), (4, 10)]
    let pre := .test :: ps.map AggregatorStep.addPoint ++
      [.swap, .emit "mac|ue=1" 0, .loopEnd, .test]
    let post := [AggregatorStep.swap, .loopEnd, .test]
    ∃ s, exec {} pre = some s ∧ ∃ s', s.exec (.shutdown :: post) = some s' ∧
      s'.emitted.map Report.line = [⟨"mac", "ue=1", [("bits", 7)], 20⟩] ∧ s.added = ps ∧
      (∀ r ∈ s'.emitted, r.Right s'.closed) ∧ ∀ p ∈ s.added, s'.ReportedOnce p := by
  intro ps pre post
  let s := (exec {} pre).getD {}
  let s' := (s.exec (.shutdown :: post)).getD {}
  have hpre : exec {} pre = some s := by decide +kernel
  have hpost : s.exec (.shutdown :: post) = some s' := by decide +kernel
  have hadded : s'.added = ps := by decide +kernel
  have hkept : WellKept s'.added := hadded ▸ wellKept_points (by decide +kernel) (by decide +kernel)
  have hclosed : s'.closed = [ps, []] := by decide +kernel
  obtain ⟨hright, -, -, honce⟩ :=
    reportedOnce_iff pre post s s' hpre hpost (by decide +kernel) hkept
  refine ⟨s, hpre, s', hpost, by decide +kernel, by decide +kernel, hright.mpr ?_,
    honce.mpr (Or.inl (by decide +kernel))⟩
  intro w hw key
  have hwhole : ∀ x ∈ [((3 : ℚ), (20 : ℤ)), (4, 10)], ∃ n : ℤ, (n : ℚ) = x.1 := by
    intro x hx
    rcases List.mem_pair.mp hx with rfl | rfl
    · exact ⟨3, by norm_num⟩
    · exact ⟨4, by norm_num⟩
  rw [hclosed] at hw
  rcases List.mem_pair.mp hw with rfl | rfl
  · exact addsUp_points hwhole (by decide +kernel) List.filter_sublist
  · exact addsUp_nil

/-- A point added while the worker emits is lost by a shutdown before it sleeps again. -/
theorem reportedOnce_lost :
    let ps := points .sum [(3, 20)]
    let pre := [.test, .swap] ++ ps.map AggregatorStep.addPoint
    let post := [AggregatorStep.loopEnd, .test]
    ∃ s, exec {} pre = some s ∧ ∃ s', s.exec (.shutdown :: post) = some s' ∧
      s'.worker = .exited ∧ WellKept s'.added ∧ s'.emitted = [] ∧
      ¬ ∀ p ∈ s.added, s'.ReportedOnce p := by
  intro ps pre post
  let s := (exec {} pre).getD {}
  let s' := (s.exec (.shutdown :: post)).getD {}
  have hadded : s'.added = ps := by decide +kernel
  have hkept : WellKept s'.added := hadded ▸ wellKept_points (by decide +kernel) (by decide +kernel)
  exact ⟨s, by decide +kernel, s', by decide +kernel, by decide +kernel, hkept, by decide +kernel,
    by decide +kernel⟩

end Aggregator

end NetworkEmulator
