/-
What the accumulators of a window hold.

Both maps of a window are folds into groups: the series of a key is what the points of that
key come to, and the accumulator of a field is what the samples of that field come to.  From
there each kind of field is one fold over its samples.  What the worker prints is the value of
the latest sample, or the sum or the average as doubles give them; and these are the nearest
doubles where the samples add up (`carries_ofSamples_iff`), as small whole numbers do.

Where the samples add up in every order, and their times differ, the line of a series does not
depend on the order of its points (`line_perm`).
-/
import NetworkEmulator.Library.GroupFold
import NetworkEmulator.Model.Aggregator

namespace NetworkEmulator

open Rounding

/-! ### What a window comes to -/

/-- The series a list of points of one key comes to. -/
def SeriesWindow.ofPoints (ps : List MetricPoint) : SeriesWindow :=
  ps.foldl SeriesWindow.addPoint {}

/-- The accumulators a list of points comes to. -/
def Accum.ofPoints (ps : List MetricPoint) : Accum := ps.foldl Accum.addPoint ∅

/-- The values the points have for the field `name`, each with its time. -/
def samples (name : String) (ps : List MetricPoint) : List (MetricField × ℤ) :=
  ps.filterMap fun p => p.fields[name]?.map (·, p.tsNs)

/-- The accumulator a list of samples comes to. -/
def WindowAccum.ofSamples (l : List (MetricField × ℤ)) : WindowAccum :=
  l.foldl (fun a x => a.addField x.1 x.2) {}

theorem Accum.ofPoints_concat (ps : List MetricPoint) (p : MetricPoint) :
    ofPoints (ps ++ [p]) = (ofPoints ps).addPoint p := by
  simp [ofPoints]

/-- **The series of a key is what the points of that key come to.** -/
theorem Accum.getElem?_ofPoints (ps : List MetricPoint) (key : String) :
    (ofPoints ps)[key]? = if ps.filter (·.key = key) = [] then none
      else some (SeriesWindow.ofPoints (ps.filter (·.key = key))) :=
  GroupFold.getElem?_foldl_into ps key

/-- Points are accumulated exactly when there are some. -/
theorem Accum.ofPoints_eq_empty {ps : List MetricPoint} : ofPoints ps = ∅ ↔ ps = [] := by
  constructor
  · intro hempty
    by_contra hne
    obtain ⟨p, hp⟩ := List.exists_mem_of_ne_nil _ hne
    have hmem : p ∈ ps.filter (·.key = p.key) := List.mem_filter.mpr ⟨hp, by simp⟩
    have hnone := getElem?_ofPoints ps p.key
    rw [hempty, Std.ExtTreeMap.getElem?_empty, if_neg (List.ne_nil_of_mem hmem)] at hnone
    cases hnone
  · rintro rfl
    rfl

/-- The fields of a point, each with the time of the point. -/
private def timedFields (p : MetricPoint) : List ((String × MetricField) × ℤ) :=
  p.fields.toList.map (·, p.tsNs)

/-- `add_point`, on the accumulators of the fields. -/
private def intoFields : Std.ExtTreeMap String WindowAccum compare →
    (String × MetricField) × ℤ → Std.ExtTreeMap String WindowAccum compare :=
  GroupFold.into (fun x => x.1.1) (fun a x => a.addField x.1.2 x.2) {}

private theorem fields_foldl_addField (l : List (String × MetricField)) (tsNs : ℤ) :
    ∀ series : SeriesWindow, (l.foldl (fun series => series.addField tsNs) series).fields =
      (l.map (·, tsNs)).foldl intoFields series.fields := by
  induction l with
  | nil => intro series; rfl
  | cons f rest ih => intro series; exact ih _

private theorem fields_addPoint (series : SeriesWindow) (p : MetricPoint) :
    (series.addPoint p).fields = (timedFields p).foldl intoFields series.fields := by
  unfold SeriesWindow.addPoint
  rw [fields_foldl_addField]
  split <;> rfl

private theorem fields_ofPoints (ps : List MetricPoint) :
    (SeriesWindow.ofPoints ps).fields = (ps.flatMap timedFields).foldl intoFields ∅ := by
  induction ps using List.reverseRecOn with
  | nil => rfl
  | append_singleton ps p ih =>
      rw [List.flatMap_append, List.foldl_append, ← ih, List.flatMap_singleton,
        ← fields_addPoint, SeriesWindow.ofPoints, List.foldl_append]
      rfl

private theorem timedFields_filter (name : String) (p : MetricPoint) :
    (timedFields p).filter (fun x => x.1.1 = name) =
      p.fields[name]?.toList.map fun f => ((name, f), p.tsNs) := by
  have h := GroupFold.toList_filter_key p.fields name
  rw [timedFields, List.filter_map]
  show (p.fields.toList.filter fun e => e.1 = name).map _ = _
  rw [h, List.map_map]
  rfl

private theorem samples_eq (name : String) (ps : List MetricPoint) :
    samples name ps = ((ps.flatMap timedFields).filter fun x => x.1.1 = name).map
      fun x => (x.1.2, x.2) := by
  induction ps with
  | nil => rfl
  | cons p rest ih =>
      rw [List.flatMap_cons, List.filter_append, List.map_append, ← ih, timedFields_filter]
      cases h : p.fields[name]? with
      | none => simp [samples, h]
      | some f => simp [samples, h]

/-- **The accumulator of a field is what the samples of that field come to.** -/
theorem SeriesWindow.getElem?_fields_ofPoints (ps : List MetricPoint) (name : String) :
    (ofPoints ps).fields[name]? = if samples name ps = [] then none
      else some (WindowAccum.ofSamples (samples name ps)) := by
  rw [fields_ofPoints, samples_eq, WindowAccum.ofSamples, List.foldl_map]
  simp only [List.map_eq_nil_iff]
  exact GroupFold.getElem?_foldl_into (ps.flatMap timedFields) name

/-! ### The values -/

/-- What a kind of field is to carry for its samples: the double that is nearest to their sum or
average, or the latest value. -/
def FieldAggregation.Carries : FieldAggregation → List (MetricField × ℤ) → ℚ → Prop
  | .sum, l, v => v = binary64.round (l.map (·.1.value)).sum
  | .mean, l, v => v = binary64.round ((l.map (·.1.value)).sum / l.length)
  | .last, l, v => ∃ x ∈ l, x.1.value = v ∧ ∀ y ∈ l, y.2 ≤ x.2

/-- Adding the samples as doubles, one after another, gives what the kind is to carry. -/
def FieldAggregation.AddsUp : FieldAggregation → List (MetricField × ℤ) → Prop
  | .sum, l => binary64.sum (l.map (·.1.value)) = binary64.round (l.map (·.1.value)).sum
  | .mean, l => binary64.quotient (binary64.sum (l.map (·.1.value))) l.length =
      binary64.round ((l.map (·.1.value)).sum / l.length)
  | .last, _ => True

/-- The points of a series add up, field by field and in whatever order they are added. -/
def AddsUp (ps : List MetricPoint) : Prop :=
  ∀ qs : List MetricPoint, qs.Perm ps → ∀ name kind,
    (∀ x ∈ samples name qs, x.1.aggregation = kind) → kind.AddsUp (samples name qs)

-- Doubles do not add up in every order.
example : binary64.sum [10 ^ 17, -10 ^ 17, 1] = 1 ∧ binary64.sum [10 ^ 17, 1, -10 ^ 17] = 0 := by
  decide +kernel

theorem FieldAggregation.addsUp_nil (kind : FieldAggregation) : kind.AddsUp [] := by
  cases kind with
  | sum => exact Format.round_zero.symm
  | mean =>
      show binary64.quotient 0 _ = binary64.round (0 / _)
      rw [zero_div, Format.round_zero, Format.quotient, abs_zero, if_pos (by positivity), zero_div,
        Format.store_zero]
  | last => trivial

theorem addsUp_nil : AddsUp [] := by
  intro qs hperm name kind _
  rw [List.perm_nil.mp hperm]
  exact kind.addsUp_nil

/-- Whole numbers that are small together add up. -/
theorem FieldAggregation.addsUp_of_whole {l : List (MetricField × ℤ)} (kind : FieldAggregation)
    (hwhole : ∀ x ∈ l, ∃ n : ℤ, (n : ℚ) = x.1.value)
    (hsmall : (l.map fun x => |x.1.value|).sum ≤ 2 ^ 53) : kind.AddsUp l := by
  have hwhole' : ∀ v ∈ l.map (·.1.value), ∃ n : ℤ, (n : ℚ) = v := by
    intro v hv
    obtain ⟨x, hx, rfl⟩ := List.mem_map.mp hv
    exact hwhole x hx
  have hsmall' : ((l.map (·.1.value)).map abs).sum ≤ 2 ^ binary64.precision := by
    rw [List.map_map]
    exact hsmall
  have hsum := Format.sum_eq hwhole' hsmall'
  have habs : |(l.map (·.1.value)).sum| ≤ 2 ^ binary64.precision :=
    (List.le_sum_of_subadditive abs abs_zero.le abs_add_le _).trans hsmall'
  cases kind with
  | sum =>
      show binary64.sum _ = _
      rw [hsum, ← Format.store_eq_round habs]
      exact (Format.holds_sum hwhole' hsmall').store_eq.symm
  | mean =>
      show binary64.quotient (binary64.sum _) _ = _
      rw [hsum]
      exact Format.quotient_eq_round habs l.length
  | last => trivial

/-- Points with whole numbers that are small together add up, all or some of them. -/
theorem addsUp_of_whole {ps w : List MetricPoint} (hsub : ps.Sublist w)
    (hwhole : ∀ name, ∀ x ∈ samples name w, ∃ n : ℤ, (n : ℚ) = x.1.value)
    (hsmall : ∀ name, ((samples name w).map fun x => |x.1.value|).sum ≤ 2 ^ 53) : AddsUp ps := by
  intro qs hperm name kind _
  have hsamples : (samples name qs).Perm (samples name ps) := hperm.filterMap _
  have hsome : (samples name ps).Sublist (samples name w) := hsub.filterMap _
  refine kind.addsUp_of_whole (fun x hx => hwhole name x (hsome.subset (hsamples.subset hx))) ?_
  rw [(hsamples.map _).sum_eq]
  refine ((hsome.map _).sum_le_sum fun v hv => ?_).trans (hsmall name)
  obtain ⟨x, -, rfl⟩ := List.mem_map.mp hv
  exact abs_nonneg _

namespace WindowAccum

variable {l : List (MetricField × ℤ)} {kind : FieldAggregation}

private theorem ofSamples_concat (l : List (MetricField × ℤ)) (x : MetricField × ℤ) :
    ofSamples (l ++ [x]) = (ofSamples l).addField x.1 x.2 := by
  simp [ofSamples]

private theorem aggregation_addField (a : WindowAccum) (field : MetricField) (tsNs : ℤ) :
    (a.addField field tsNs).aggregation = field.aggregation := by
  unfold addField
  cases h : field.aggregation with
  | sum => rfl
  | mean => rfl
  | last => dsimp only; split <;> rfl

theorem aggregation_ofSamples (hkind : ∀ x ∈ l, x.1.aggregation = kind) (hne : l ≠ []) :
    (ofSamples l).aggregation = kind := by
  obtain ⟨l, x, rfl⟩ := List.eq_nil_or_concat l |>.resolve_left hne
  rw [List.concat_eq_append, ofSamples_concat, aggregation_addField]
  exact hkind x (by simp)

/-- A sum field adds its samples as doubles. -/
theorem sum_ofSamples (hkind : ∀ x ∈ l, x.1.aggregation ≠ .last) :
    (ofSamples l).sum = binary64.sum (l.map (·.1.value)) := by
  induction l using List.reverseRecOn with
  | nil => rfl
  | append_singleton l x ih =>
      have hx := hkind x (by simp)
      rw [ofSamples_concat, List.map_append, List.map_singleton, Format.sum_concat,
        ← ih fun y hy => hkind y (List.mem_append_left _ hy)]
      unfold addField
      cases h : x.1.aggregation with
      | sum => rfl
      | mean => rfl
      | last => exact absurd h hx

/-- A mean field counts its samples. -/
private theorem count_ofSamples (hkind : ∀ x ∈ l, x.1.aggregation = .mean) :
    (ofSamples l).count = l.length := by
  induction l using List.reverseRecOn with
  | nil => rfl
  | append_singleton l x ih =>
      rw [ofSamples_concat, List.length_append,
        ← ih fun y hy => hkind y (List.mem_append_left _ hy), addField, hkind x (by simp)]
      rfl

/-- A last field holds its latest sample. -/
private theorem lastValue_ofSamples (hkind : ∀ x ∈ l, x.1.aggregation = .last)
    (hpos : ∀ x ∈ l, 0 < x.2) :
    (l = [] ∧ (ofSamples l).lastTs = 0) ∨
      ∃ x ∈ l, x.1.value = (ofSamples l).lastValue ∧ x.2 = (ofSamples l).lastTs ∧
        ∀ y ∈ l, y.2 ≤ x.2 := by
  induction l using List.reverseRecOn with
  | nil => exact Or.inl ⟨rfl, rfl⟩
  | append_singleton l x ih =>
      have hx := hpos x (by simp)
      have ih := ih (fun y hy => hkind y (List.mem_append_left _ hy)) fun y hy =>
        hpos y (List.mem_append_left _ hy)
      rw [ofSamples_concat, addField, hkind x (by simp)]
      dsimp only
      refine Or.inr ?_
      by_cases hle : (ofSamples l).lastTs ≤ x.2
      · rw [if_pos hle]
        refine ⟨x, by simp, rfl, rfl, fun y hy => ?_⟩
        rcases List.mem_append.mp hy with hy | hy
        · rcases ih with ⟨rfl, -⟩ | ⟨z, -, -, hz, hmax⟩
          · cases hy
          · exact (hmax y hy).trans (hz.trans_le hle)
        · rw [List.mem_singleton.mp hy]
      · -- A sample that comes late leaves the accumulator as it was.
        rw [if_neg hle]
        rcases ih with ⟨-, hzero⟩ | ⟨z, hz, hval, hts, hmax⟩
        · exact absurd (hzero.trans_le hx.le) hle
        · refine ⟨z, List.mem_append_left _ hz, hval, hts, fun y hy => ?_⟩
          rcases List.mem_append.mp hy with hy | hy
          · exact hmax y hy
          · rw [List.mem_singleton.mp hy, hts]
            exact (not_le.mp hle).le

/-- **The worker prints what the kind of the field is to carry where the samples add up.** -/
theorem carries_ofSamples_iff (hkind : ∀ x ∈ l, x.1.aggregation = kind) (hpos : ∀ x ∈ l, 0 < x.2)
    (hne : l ≠ []) : kind.Carries l (ofSamples l).value ↔ kind.AddsUp l := by
  have hagg := aggregation_ofSamples hkind hne
  cases kind with
  | sum =>
      rw [value, hagg]
      show (ofSamples l).sum = _ ↔ _
      rw [sum_ofSamples fun x hx => by rw [hkind x hx]; decide]
      rfl
  | mean =>
      have hcount := count_ofSamples hkind
      have hlen : l.length ≠ 0 := fun h => hne (List.length_eq_zero_iff.mp h)
      rw [value, hagg]
      show (if (ofSamples l).count ≠ 0 then _ else _) = _ ↔ _
      rw [hcount, if_pos hlen, sum_ofSamples fun x hx => by rw [hkind x hx]; decide]
      rfl
  | last =>
      rw [value, hagg]
      rcases lastValue_ofSamples hkind hpos with ⟨h, -⟩ | ⟨x, hx, hval, -, hmax⟩
      · exact absurd h hne
      · exact iff_of_true ⟨x, hx, hval, hmax⟩ trivial

end WindowAccum

/-- Samples in another order carry the same. -/
theorem FieldAggregation.Carries.perm {kind : FieldAggregation} {l l' : List (MetricField × ℤ)}
    {v : ℚ} (h : kind.Carries l v) (hperm : l.Perm l') : kind.Carries l' v := by
  cases kind with
  | sum => exact h.trans (congrArg _ (hperm.map _).sum_eq)
  | mean =>
      show v = binary64.round (_ / (l'.length : ℚ))
      rw [← hperm.length_eq, ← (hperm.map _).sum_eq]
      exact h
  | last =>
      obtain ⟨x, hx, hv, hmax⟩ := h
      exact ⟨x, hperm.subset hx, hv, fun y hy => hmax y (hperm.symm.subset hy)⟩

/-- Samples at different times carry one value. -/
theorem FieldAggregation.Carries.unique {kind : FieldAggregation} {l : List (MetricField × ℤ)}
    {v v' : ℚ} (hnodup : (l.map Prod.snd).Nodup) (h : kind.Carries l v)
    (h' : kind.Carries l v') : v = v' := by
  cases kind with
  | sum => exact h.trans h'.symm
  | mean => exact h.trans h'.symm
  | last =>
      obtain ⟨x, hx, rfl, hmax⟩ := h
      obtain ⟨y, hy, rfl, hmax'⟩ := h'
      have hts : x.2 = y.2 := le_antisymm (hmax' x hx) (hmax y hy)
      rw [List.inj_on_of_nodup_map hnodup hx hy hts]

/-! ### Series -/

/-- What is said of the points: every field name keeps one kind, and the times of a series
are positive and distinct. -/
structure WellKept (ps : List MetricPoint) : Prop where
  kind : ∀ p ∈ ps, ∀ q ∈ ps, ∀ (name : String) (f g : MetricField),
    p.fields[name]? = some f → q.fields[name]? = some g → f.aggregation = g.aggregation
  positive : ∀ p ∈ ps, 0 < p.tsNs
  distinct : ps.Pairwise fun p q => p.key = q.key → p.tsNs ≠ q.tsNs

theorem WellKept.sublist {ps qs : List MetricPoint} (h : WellKept ps) (hsub : qs.Sublist ps) :
    WellKept qs where
  kind p hp q hq := h.kind p (hsub.subset hp) q (hsub.subset hq)
  positive p hp := h.positive p (hsub.subset hp)
  distinct := h.distinct.sublist hsub

/-- The points are distinct. -/
theorem WellKept.nodup {ps : List MetricPoint} (h : WellKept ps) : ps.Nodup :=
  h.distinct.imp fun {p q} hne heq => hne (by rw [heq]) (by rw [heq])

section Series

variable {ps qs : List MetricPoint} {key name : String}

theorem mem_samples {x : MetricField × ℤ} : x ∈ samples name ps ↔
    ∃ p ∈ ps, p.fields[name]? = some x.1 ∧ p.tsNs = x.2 := by
  rw [samples, List.mem_filterMap]
  refine exists_congr fun p => and_congr_right fun _ => ?_
  rw [Option.map_eq_some_iff]
  constructor
  · rintro ⟨f, hf, rfl⟩
    exact ⟨hf, rfl⟩
  · rintro ⟨hf, hts⟩
    exact ⟨x.1, hf, by rw [hts]⟩

theorem samples_ne_nil : samples name ps ≠ [] ↔ ∃ p ∈ ps, name ∈ p.fields := by
  constructor
  · intro hne
    obtain ⟨x, hx⟩ := List.exists_mem_of_ne_nil _ hne
    obtain ⟨p, hp, hf, -⟩ := mem_samples.mp hx
    exact ⟨p, hp, Std.ExtTreeMap.mem_iff_isSome_getElem?.mpr (by rw [hf]; rfl)⟩
  · rintro ⟨p, hp, hname⟩
    obtain ⟨f, hf⟩ := Option.isSome_iff_exists.mp (Std.ExtTreeMap.mem_iff_isSome_getElem?.mp hname)
    exact List.ne_nil_of_mem (a := (f, p.tsNs)) (mem_samples.mpr ⟨p, hp, hf, rfl⟩)

theorem samples_kind (h : WellKept ps) :
    ∃ kind, ∀ x ∈ samples name ps, x.1.aggregation = kind := by
  by_cases hne : samples name ps = []
  · exact ⟨.sum, fun x hx => by rw [hne] at hx; cases hx⟩
  · obtain ⟨x, hx⟩ := List.exists_mem_of_ne_nil _ hne
    obtain ⟨p, hp, hf, -⟩ := mem_samples.mp hx
    refine ⟨x.1.aggregation, fun y hy => ?_⟩
    obtain ⟨q, hq, hg, -⟩ := mem_samples.mp hy
    exact h.kind q hq p hp name _ _ hg hf

theorem samples_pos (h : WellKept ps) : ∀ x ∈ samples name ps, 0 < x.2 := by
  intro x hx
  obtain ⟨p, hp, -, hts⟩ := mem_samples.mp hx
  rw [← hts]
  exact h.positive p hp

private theorem samples_nodup (h : WellKept ps) (hkey : ∀ p ∈ ps, p.key = key) :
    ((samples name ps).map Prod.snd).Nodup := by
  refine List.pairwise_map.mpr (List.pairwise_filterMap.mpr ?_)
  refine (List.Pairwise.and_mem.mp h.distinct).imp fun {p q} hpq x hx y hy => ?_
  obtain ⟨hp, hq, hne⟩ := hpq
  obtain ⟨f, -, rfl⟩ := Option.map_eq_some_iff.mp hx
  obtain ⟨g, -, rfl⟩ := Option.map_eq_some_iff.mp hy
  exact hne ((hkey p hp).trans (hkey q hq).symm)

/-- The values of a series, by field. -/
private def SeriesWindow.values (series : SeriesWindow) : Std.ExtTreeMap String ℚ compare :=
  series.fields.map fun _ a => a.value

private theorem getElem?_values (ps : List MetricPoint) (name : String) :
    (SeriesWindow.ofPoints ps).values[name]? = if samples name ps = [] then none
      else some (WindowAccum.ofSamples (samples name ps)).value := by
  rw [SeriesWindow.values, Std.ExtTreeMap.getElem?_map, SeriesWindow.getElem?_fields_ofPoints]
  split <;> rfl

private theorem values_perm (h : WellKept ps) (hkey : ∀ p ∈ ps, p.key = key) (hadds : AddsUp ps)
    (hperm : qs.Perm ps) :
    (SeriesWindow.ofPoints qs).values = (SeriesWindow.ofPoints ps).values := by
  refine Std.ExtTreeMap.ext_getElem? fun name => ?_
  have hsamples : (samples name qs).Perm (samples name ps) := hperm.filterMap _
  rw [getElem?_values, getElem?_values]
  by_cases hne : samples name ps = []
  · rw [if_pos hne, if_pos (List.perm_nil.mp (hne ▸ hsamples))]
  · have hne' : samples name qs ≠ [] := fun hnil => hne (List.nil_perm.mp (hnil ▸ hsamples))
    obtain ⟨kind, hkind⟩ : ∃ kind, ∀ x ∈ samples name ps, x.1.aggregation = kind :=
      samples_kind h
    rw [if_neg hne, if_neg hne']
    have hkind' : ∀ x ∈ samples name qs, x.1.aggregation = kind := fun x hx =>
      hkind x (hsamples.subset hx)
    have hcarries := (WindowAccum.carries_ofSamples_iff hkind (samples_pos h) hne).mpr
      (hadds ps (.refl ps) name kind hkind)
    have hcarries' := (WindowAccum.carries_ofSamples_iff hkind'
      (fun x hx => samples_pos h x (hsamples.subset hx)) hne').mpr
      (hadds qs hperm name kind hkind')
    rw [(hcarries'.perm hsamples).unique (samples_nodup h hkey) hcarries]

private theorem ofPoints_concat (ps : List MetricPoint) (p : MetricPoint) :
    SeriesWindow.ofPoints (ps ++ [p]) = (SeriesWindow.ofPoints ps).addPoint p := by
  simp [SeriesWindow.ofPoints]

private theorem latest_foldl_addField (l : List (String × MetricField)) (tsNs : ℤ) :
    ∀ series : SeriesWindow,
      (l.foldl (fun series => series.addField tsNs) series).latestTsNs = series.latestTsNs := by
  induction l with
  | nil => intro series; rfl
  | cons f rest ih => intro series; exact ih _

private theorem latest_addPoint (series : SeriesWindow) (p : MetricPoint) :
    (series.addPoint p).latestTsNs =
      if series.latestTsNs < p.tsNs then p.tsNs else series.latestTsNs := by
  unfold SeriesWindow.addPoint
  rw [latest_foldl_addField]
  split <;> rfl

/-- The time of a series is that of its latest point. -/
theorem latest_ofPoints (hpos : ∀ p ∈ ps, 0 < p.tsNs) :
    (ps = [] ∧ (SeriesWindow.ofPoints ps).latestTsNs = 0) ∨
      ∃ p ∈ ps, p.tsNs = (SeriesWindow.ofPoints ps).latestTsNs ∧ ∀ q ∈ ps, q.tsNs ≤ p.tsNs := by
  induction ps using List.reverseRecOn with
  | nil => exact Or.inl ⟨rfl, rfl⟩
  | append_singleton ps p ih =>
      have hp := hpos p (by simp)
      have ih := ih fun q hq => hpos q (List.mem_append_left _ hq)
      rw [ofPoints_concat, latest_addPoint]
      refine Or.inr ?_
      by_cases hlt : (SeriesWindow.ofPoints ps).latestTsNs < p.tsNs
      · rw [if_pos hlt]
        refine ⟨p, by simp, rfl, fun q hq => ?_⟩
        rcases List.mem_append.mp hq with hq | hq
        · rcases ih with ⟨rfl, -⟩ | ⟨r, -, hr, hmax⟩
          · cases hq
          · exact (hmax q hq).trans (hr.trans_le hlt.le)
        · rw [List.mem_singleton.mp hq]
      · rw [if_neg hlt]
        rcases ih with ⟨-, hzero⟩ | ⟨r, hr, hts, hmax⟩
        · exact absurd (hzero.trans_lt hp) hlt
        · refine ⟨r, List.mem_append_left _ hr, hts, fun q hq => ?_⟩
          rcases List.mem_append.mp hq with hq | hq
          · exact hmax q hq
          · rw [List.mem_singleton.mp hq, hts]
            exact not_lt.mp hlt

/-- The points of one series come to one line, whatever their order, where they add up. -/
theorem line_perm (h : WellKept ps) (hkey : ∀ p ∈ ps, p.key = key) (hadds : AddsUp ps)
    (hne : ps ≠ []) (hperm : qs.Perm ps) (now now' : ℤ) :
    (SeriesWindow.ofPoints qs).line key now = (SeriesWindow.ofPoints ps).line key now' := by
  have hvalues := values_perm h hkey hadds hperm
  have hfields : (SeriesWindow.ofPoints qs).fields.toList.map (fun f => (f.1, f.2.value)) =
      (SeriesWindow.ofPoints ps).fields.toList.map fun f => (f.1, f.2.value) := by
    have := congrArg Std.ExtTreeMap.toList hvalues
    rwa [SeriesWindow.values, SeriesWindow.values, Std.ExtTreeMap.toList_map,
      Std.ExtTreeMap.toList_map] at this
  have hempty : (SeriesWindow.ofPoints qs).fields.isEmpty =
      (SeriesWindow.ofPoints ps).fields.isEmpty := by
    have := congrArg List.isEmpty hfields
    rwa [List.isEmpty_map, List.isEmpty_map, Std.ExtTreeMap.isEmpty_toList,
      Std.ExtTreeMap.isEmpty_toList] at this
  -- Both have a latest point, and its time is positive, so the clock is not asked.
  obtain ⟨p, hp, hts, hmax⟩ := (latest_ofPoints h.positive).resolve_left fun hnil => hne hnil.1
  obtain ⟨q, hq, hts', hmax'⟩ := (latest_ofPoints fun q hq =>
    h.positive q (hperm.subset hq)).resolve_left fun hnil =>
      hne (List.nil_perm.mp (hnil.1 ▸ hperm))
  have hlatest : (SeriesWindow.ofPoints qs).latestTsNs = (SeriesWindow.ofPoints ps).latestTsNs := by
    rw [← hts, ← hts']
    exact le_antisymm (hmax q (hperm.subset hq)) (hmax' p (hperm.symm.subset hp))
  have hpos : 0 < (SeriesWindow.ofPoints ps).latestTsNs := hts ▸ h.positive p hp
  unfold SeriesWindow.line
  rw [hfields, hempty, hlatest, if_pos hpos, if_pos hpos]

/-- A series whose points have fields has a line. -/
theorem exists_line (hne : ps ≠ []) (hfields : ∀ p ∈ ps, p.fields.isEmpty = false)
    (key : String) (now : ℤ) : ∃ line, (SeriesWindow.ofPoints ps).line key now = some line := by
  obtain ⟨p, hp⟩ := List.exists_mem_of_ne_nil _ hne
  have hnonempty : (SeriesWindow.ofPoints ps).fields.isEmpty = false := by
    rw [Std.ExtTreeMap.isEmpty_eq_false_iff]
    intro hempty
    refine (Std.ExtTreeMap.isEmpty_eq_false_iff.mp (hfields p hp)) ?_
    refine Std.ExtTreeMap.ext_getElem? fun name => ?_
    have hnone := SeriesWindow.getElem?_fields_ofPoints ps name
    rw [hempty, Std.ExtTreeMap.getElem?_empty] at hnone
    have hnil : samples name ps = [] := by
      by_contra hsamples
      rw [if_neg hsamples] at hnone
      cases hnone
    rw [Std.ExtTreeMap.getElem?_empty, Std.ExtTreeMap.getElem?_eq_none]
    exact fun hmem => samples_ne_nil.mpr ⟨p, hp, hmem⟩ hnil
  unfold SeriesWindow.line
  rw [hnonempty, if_neg Bool.false_ne_true]
  exact ⟨_, rfl⟩

end Series

/-! ### Keys -/

/-- The header of a line spells the measurement and the tags of its points. -/
theorem key_split {p : MetricPoint} (h : '|' ∉ p.measurement.toList) :
    keyMeasurement p.key = p.measurement ∧ keyTags p.key = p.tagText := by
  have hall : ∀ c ∈ p.measurement.toList, decide (c ≠ '|') = true := fun c hc =>
    decide_eq_true fun heq => h (heq ▸ hc)
  unfold MetricPoint.key keyMeasurement keyTags
  by_cases htags : p.tags.isEmpty = true
  · have hempty : p.tags = ∅ := Std.ExtTreeMap.isEmpty_iff.mp htags
    have htext : p.tagText = "" := by
      rw [MetricPoint.tagText, hempty]
      rfl
    rw [if_pos htags, List.takeWhile_eq_self_iff.mpr hall,
      List.dropWhile_eq_nil_iff.mpr hall, htext]
    exact ⟨String.ofList_toList, rfl⟩
  · rw [if_neg htags, String.toList_append, String.toList_append, List.append_assoc,
      List.takeWhile_append_of_pos hall, List.dropWhile_append_of_pos hall]
    refine ⟨?_, String.ofList_toList⟩
    show String.ofList (p.measurement.toList ++ []) = p.measurement
    rw [List.append_nil, String.ofList_toList]

end NetworkEmulator
