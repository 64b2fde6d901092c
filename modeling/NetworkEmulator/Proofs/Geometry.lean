/-
Whether the grids and the PHY layers agree on the resource geometry.

Both directions get their PHY layers from the downlink grid.  So downlink always agrees,
and uplink does when the resource blocks that fit into its share of the bandwidth make
groups of the same size and no more of them.  With TDD both directions have the whole
bandwidth; with FDD the ratio decides.
-/
import NetworkEmulator.Library.Runs
import NetworkEmulator.Model.Simulator

namespace NetworkEmulator

open Rounding

/-! ### Truncation -/

theorem truncToInt_of_nonneg {x : ℚ} (h : 0 ≤ x) : truncToInt x = ⌊x⌋ := if_pos h

/-- What is left of a `float` is one. -/
private theorem represents_truncToInt {x : ℚ} (h : binary32.Represents x) :
    binary32.Represents (truncToInt x) := by
  unfold truncToInt
  split
  · exact h.floor
  · have hceil : ⌈x⌉ = -⌊-x⌋ := by rw [Int.floor_neg, neg_neg]
    rw [hceil, Int.cast_neg]
    exact h.neg.floor.neg

/-! ### The resource blocks of a direction -/

namespace MacConfig

/-- The bandwidth of one resource block, in Hz. -/
def rbBandwidth (c : MacConfig) : ℤ :=
  Grid.schScSpacing (Grid.checkNumerology c.numerology) * 1000 * c.nReFreq

/-- How many resource blocks fit into the share of a direction. -/
def rbs (c : MacConfig) (tx : Direction) : ℤ :=
  min ((Grid.directionBandwidth tx c).tdiv c.rbBandwidth) Grid.inf

/-- How many resource blocks make a group, when there are `n`. -/
def rbgSize (c : MacConfig) (n : ℤ) : ℤ :=
  if UInt8.ofInt c.schedulingType = 0 then
    Grid.checkSchConfig n (UInt8.ofInt c.schedulingConfig).toNat
  else 1

theorem rbgSize_pos (c : MacConfig) (n : ℤ) : 0 < c.rbgSize n := by
  have htable : ∀ config, ∀ r ∈ Grid.schRbgSize config, 0 < r.2.2 := by
    intro config r hr
    unfold Grid.schRbgSize at hr
    split at hr <;> revert r <;> decide
  unfold rbgSize Grid.checkSchConfig
  split
  · split
    · exact one_pos
    · split
      · rename_i r hr
        exact htable _ r (List.mem_of_find?_eq_some hr)
      · exact one_pos
  · exact one_pos

end MacConfig

/-- **What the constructor of the grid derives.** -/
structure Grid.LaidOut (g : Grid) (tx : Direction) (c : MacConfig) : Prop where
  enough : 20 ≤ c.rbs tx
  nReFreq : c.nReFreq ≠ 0
  nFreqRbg : g.nFreqRbg = c.rbs tx / c.rbgSize (c.rbs tx)
  nScRbg : g.nScRbg = c.nReFreq * c.rbgSize (c.rbs tx)
  nTimeRbg : 0 < g.nTimeRbg

theorem Grid.make_laidOut {tx : Direction} {c : MacConfig} {g : Grid}
    (h : Grid.make tx c = some g) : g.LaidOut tx c := by
  simp only [Grid.make] at h
  change (if c.rbBandwidth = 0 then none else _) = some g at h
  split at h
  · cases h
  · rename_i hrb
    change (if c.rbs tx < 20 then none else _) = some g at h
    split at h
    · cases h
    · rename_i hmin
      obtain rfl := Option.some.inj h
      have henough : 20 ≤ c.rbs tx := not_lt.mp hmin
      have htime : (0 : ℤ) < 2 ^ Grid.checkNumerology c.numerology := by positivity
      refine ⟨henough, fun hzero => hrb ?_, ?_, rfl, ?_⟩
      · rw [MacConfig.rbBandwidth, hzero, mul_zero]
      · show (c.rbs tx).tdiv (c.rbgSize (c.rbs tx)) = _
        rw [Int.tdiv_eq_ediv_of_nonneg (by omega)]
      · simp only
        cases Grid.checkSchMode c.schedulingMode with
        | distributed => exact htime
        | localized => exact one_pos

/-- The frequency indices that `step` visits are those below the number of RBGs. -/
theorem Grid.forall_visits {g : Grid} (htime : 0 < g.nTimeRbg) {P : ℕ → Prop} :
    (∀ v ∈ g.visits, P v.2) ↔ ∀ f < g.nFreqRbg.toNat, P f := by
  unfold Grid.visits
  simp only [List.mem_flatMap, List.mem_range, List.mem_map]
  constructor
  · intro h f hf
    exact h (0, f) ⟨0, by omega, f, hf, rfl⟩
  · rintro h v ⟨t, -, f, hf, rfl⟩
    exact h f hf

/-! ### The theorem -/

namespace Simulator

/-- The grid and the PHY layers of a direction agree: each RBG that `step` visits has its
entry in the vectors of each UE, and a PHY layer counts the subcarriers an RBG has. -/
structure GeometryAgrees (s : Simulator) (tx : Direction) : Prop where
  inBounds : ∀ v ∈ (s.macL.grid tx).visits, ∀ u ∈ s.ueList,
    v.2 < (u.phy tx).tpV.length ∧ v.2 < (u.phy tx).metricV.length ∧ v.2 < (u.phy tx).mcsV.length
  subcarriers : ∀ u ∈ s.ueList, (u.phy tx).nScRb = (s.macL.grid tx).nScRbg

/-- The PHY layers of both directions are sized by the downlink grid. -/
structure SizedByDl (s : Simulator) (u : Ue) (tx : Direction) : Prop where
  tpV : (u.phy tx).tpV.length = s.macL.gridDl.nFreqRbg.toNat
  metricV : (u.phy tx).metricV.length = s.macL.gridDl.nFreqRbg.toNat
  mcsV : (u.phy tx).mcsV.length = s.macL.gridDl.nFreqRbg.toNat
  nScRb : (u.phy tx).nScRb = s.macL.gridDl.nScRbg

private theorem make_spec {c : SimulatorConfig} {s : Simulator} (h : make c = some s) :
    (∀ tx, (s.macL.grid tx).LaidOut tx c.mac) ∧ (s.ueList = [] ↔ c.ues = []) ∧
      ∀ u ∈ s.ueList, ∀ tx, s.SizedByDl u tx := by
  unfold make MacLayer.make at h
  cases hdl : Grid.make .dl c.mac with
  | none => simp [hdl] at h
  | some gridDl =>
      cases hul : Grid.make .ul c.mac with
      | none => simp [hdl, hul] at h
      | some gridUl =>
          simp only [hdl, hul, Option.some.injEq] at h
          obtain rfl := h
          refine ⟨fun tx => ?_, List.map_eq_nil_iff, fun u hu tx => ?_⟩
          · cases tx with
            | dl => exact Grid.make_laidOut hdl
            | ul => exact Grid.make_laidOut hul
          · obtain ⟨cfg, -, rfl⟩ := List.mem_map.mp hu
            cases tx <;>
              exact ⟨List.length_replicate, List.length_replicate, List.length_replicate, rfl⟩

/-- A direction agrees when its own grid is no wider than the downlink one and has groups
of the same size. -/
private theorem agrees_iff {s : Simulator} {tx : Direction} {u : Ue} (hu : u ∈ s.ueList)
    (htime : 0 < (s.macL.grid tx).nTimeRbg) (hsized : ∀ u ∈ s.ueList, s.SizedByDl u tx) :
    s.GeometryAgrees tx ↔ (s.macL.grid tx).nFreqRbg.toNat ≤ s.macL.gridDl.nFreqRbg.toNat ∧
      s.macL.gridDl.nScRbg = (s.macL.grid tx).nScRbg := by
  constructor
  · intro h
    refine ⟨?_, (hsized u hu).nScRb.symm.trans (h.subcarriers u hu)⟩
    have hall := (Grid.forall_visits htime (P := fun f => f < (u.phy tx).tpV.length)).mp
      fun v hv => (h.inBounds v hv u hu).1
    rw [(hsized u hu).tpV] at hall
    by_contra hlt
    exact absurd (hall _ (not_le.mp hlt)) (lt_irrefl _)
  · rintro ⟨hle, hsc⟩
    refine ⟨fun v hv u hu => ?_, fun u hu => (hsized u hu).nScRb.trans hsc⟩
    have hlt : v.2 < s.macL.gridDl.nFreqRbg.toNat :=
      (Grid.forall_visits htime (P := fun f => f < s.macL.gridDl.nFreqRbg.toNat)).mpr
        (fun f hf => lt_of_lt_of_le hf hle) v hv
    rw [(hsized u hu).tpV, (hsized u hu).metricV, (hsized u hu).mcsV]
    exact ⟨hlt, hlt, hlt⟩

private theorem agrees_of_empty {s : Simulator} (h : s.ueList = []) (tx : Direction) :
    s.GeometryAgrees tx := by
  refine ⟨fun v _ u hu => ?_, fun u hu => ?_⟩
  · rw [h] at hu
    cases hu
  · rw [h] at hu
    cases hu

/-- Downlink agrees with the grid that sized it. -/
theorem geometryAgrees_dl {c : SimulatorConfig} {s : Simulator} (h : make c = some s) :
    s.GeometryAgrees .dl := by
  obtain ⟨hlaid, -, hsized⟩ := make_spec h
  cases hues : s.ueList with
  | nil => exact agrees_of_empty hues .dl
  | cons u rest =>
      have hu : u ∈ s.ueList := by
        rw [hues]
        exact List.mem_cons_self ..
      exact (agrees_iff hu (hlaid .dl).nTimeRbg fun u hu => hsized u hu .dl).mpr ⟨le_rfl, rfl⟩

/-- Uplink agrees when its share of the bandwidth is laid out like that of downlink. -/
private theorem geometryAgrees_ul {c : SimulatorConfig} {s : Simulator} (h : make c = some s) :
    s.GeometryAgrees .ul ↔ c.ues = [] ∨
      c.mac.rbgSize (c.mac.rbs .ul) = c.mac.rbgSize (c.mac.rbs .dl) ∧
      c.mac.rbs .ul / c.mac.rbgSize (c.mac.rbs .ul)
        ≤ c.mac.rbs .dl / c.mac.rbgSize (c.mac.rbs .dl) := by
  obtain ⟨hlaid, hnil, hsized⟩ := make_spec h
  cases hues : s.ueList with
  | nil => exact iff_of_true (agrees_of_empty hues .ul) (Or.inl (hnil.mp hues))
  | cons u rest =>
      have hu : u ∈ s.ueList := by
        rw [hues]
        exact List.mem_cons_self ..
      have hsome : c.ues ≠ [] := fun hno => by
        rw [hnil.mpr hno] at hues
        cases hues
      have hcount : 0 ≤ c.mac.rbs .dl / c.mac.rbgSize (c.mac.rbs .dl) :=
        Int.ediv_nonneg (le_trans (by norm_num) (hlaid .dl).enough) (c.mac.rbgSize_pos _).le
      have hwidth : (s.macL.grid .ul).nFreqRbg.toNat ≤ s.macL.gridDl.nFreqRbg.toNat ↔
          c.mac.rbs .ul / c.mac.rbgSize (c.mac.rbs .ul)
            ≤ c.mac.rbs .dl / c.mac.rbgSize (c.mac.rbs .dl) := by
        have hwide : s.macL.gridDl.nFreqRbg = _ := (hlaid .dl).nFreqRbg
        rw [(hlaid .ul).nFreqRbg, hwide]
        omega
      have hgroup : s.macL.gridDl.nScRbg = (s.macL.grid .ul).nScRbg ↔
          c.mac.rbgSize (c.mac.rbs .ul) = c.mac.rbgSize (c.mac.rbs .dl) := by
        have hsc : s.macL.gridDl.nScRbg = _ := (hlaid .dl).nScRbg
        rw [(hlaid .ul).nScRbg, hsc, mul_right_inj' (hlaid .dl).nReFreq]
        exact eq_comm
      rw [agrees_iff hu (hlaid .ul).nTimeRbg fun u hu => hsized u hu .ul, hwidth, hgroup,
        or_iff_right hsome]
      exact and_comm

/-- **Whether grid and PHY agree.**  For every configuration that the grids accept: both
directions agree exactly when there is no UE, or the resource blocks that fit into the
uplink share make groups of the same size as those of the downlink share, and no more. -/
theorem geometry_agrees_iff {c : SimulatorConfig} {s : Simulator} (h : make c = some s) :
    (∀ tx, s.GeometryAgrees tx) ↔ c.ues = [] ∨
      c.mac.rbgSize (c.mac.rbs .ul) = c.mac.rbgSize (c.mac.rbs .dl) ∧
      c.mac.rbs .ul / c.mac.rbgSize (c.mac.rbs .ul)
        ≤ c.mac.rbs .dl / c.mac.rbgSize (c.mac.rbs .dl) := by
  rw [← geometryAgrees_ul h]
  refine ⟨fun hall => hall .ul, fun hul tx => ?_⟩
  cases tx with
  | dl => exact geometryAgrees_dl h
  | ul => exact hul

/-- A 100 MHz cell with FDD whose uplink has 0.49 of it: groups of one size, and fewer. -/
theorem geometry_agrees_narrow :
    ∃ s, make { mac := { bandwidth := 100000000, ratioDlUl := binary32.round 0.51 }
                ues := [{}] } = some s ∧
      s.macL.gridUl.nFreqRbg = 16 ∧ s.macL.gridDl.nFreqRbg = 17 ∧ ∀ tx, s.GeometryAgrees tx := by
  refine Runs.exists_of_view (fun s => (s.macL.gridUl.nFreqRbg, s.macL.gridDl.nFreqRbg))
    (x := (16, 17)) (by decide +kernel) fun s hs hview => ?_
  simp only [Prod.mk.injEq] at hview
  exact ⟨hview.1, hview.2, (geometry_agrees_iff hs).mpr (Or.inr (by decide +kernel))⟩

/-- The same cell with 0.7 of it for uplink: larger groups, and one more than the vectors
of the PHY layers hold. -/
theorem geometry_disagrees :
    ∃ s, make { mac := { bandwidth := 100000000, ratioDlUl := binary32.round 0.3 }
                ues := [{}] } = some s ∧
      (0, 10) ∈ s.macL.gridUl.visits ∧ s.macL.gridUl.nScRbg = 96 ∧
      (s.ueList.map fun u => (u.phyUl.tpV.length, u.phyUl.nScRb)) = [(10, 48)] ∧
      ¬s.GeometryAgrees .ul := by
  refine Runs.exists_of_view (fun s => (s.macL.gridUl.visits.contains (0, 10),
    s.macL.gridUl.nScRbg, s.ueList.map fun u => (u.phyUl.tpV.length, u.phyUl.nScRb)))
    (x := (true, 96, [(10, 48)])) (by decide +kernel) fun s _ hview => ?_
  simp only [Prod.mk.injEq] at hview
  obtain ⟨hvisit, hsc, hues⟩ := hview
  refine ⟨List.contains_iff_mem.mp hvisit, hsc, hues, fun hagrees => ?_⟩
  have hmem : (10, 48) ∈ s.ueList.map fun u => (u.phyUl.tpV.length, u.phyUl.nScRb) := by
    rw [hues]
    exact List.mem_singleton_self _
  obtain ⟨u, hu, hlen⟩ := List.mem_map.mp hmem
  have hlt : 10 < u.phyUl.tpV.length :=
    (hagrees.inBounds (0, 10) (List.contains_iff_mem.mp hvisit) u hu).1
  have hten : u.phyUl.tpV.length = 10 := congrArg Prod.fst hlen
  rw [hten] at hlt
  exact lt_irrefl _ hlt

/-- `assignRFBandwidth` returns a `float`. -/
private theorem represents_assignRFBandwidth (bandwidth : ℚ) :
    binary32.Represents (Grid.assignRFBandwidth bandwidth) := by
  unfold Grid.assignRFBandwidth
  repeat' split
  case isFalse => exact Format.represents_round _
  all_goals exact Format.represents_iff.mpr (by decide +kernel)

/-- With TDD both directions have the same resource blocks, and so they have with FDD at
the default ratio, where halving rounds nothing. -/
theorem geometryAgrees_even {c : SimulatorConfig} {s : Simulator} (h : make c = some s)
    (heven : c.mac.duplexingType = 0 ∨ c.mac.ratioDlUl = 1 / 2) (tx : Direction) :
    s.GeometryAgrees tx := by
  have hshare : Grid.directionBandwidth .ul c.mac = Grid.directionBandwidth .dl c.mac := by
    have hfloat := represents_truncToInt
      (represents_assignRFBandwidth (binary32.round c.mac.bandwidth))
    have hhalf := hfloat.half
    have hdouble : binary64.Represents _ := hhalf.mono (by decide) (by decide)
    unfold Grid.directionBandwidth Grid.checkDuplexingType
    by_cases htdd : c.mac.duplexingType = 0
    · simp only [if_pos htdd]
    · have hone : binary64.round (1 - 1 / 2) = 1 / 2 := by decide +kernel
      simp only [if_neg htdd, heven.resolve_left htdd, hone]
      rw [hfloat.round_eq, hhalf.round_eq, hdouble.round_eq]
  have hrbs : c.mac.rbs .ul = c.mac.rbs .dl := by rw [MacConfig.rbs, hshare, ← MacConfig.rbs]
  cases tx with
  | dl => exact geometryAgrees_dl h
  | ul =>
      refine (geometryAgrees_ul h).mpr (Or.inr ?_)
      rw [hrbs]
      exact ⟨rfl, le_rfl⟩

end Simulator

end NetworkEmulator
