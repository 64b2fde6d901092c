/-
The MCS chosen by tables of SINR thresholds.

The rows of `MCS_SINR` are those for one to four layers, so the row for `n` layers is the
one with index `n - 1`, which is how `harq_handler` reads the table of the same shape.  The
constructor of `phy_layer` reads index `n`: the row of one more layer, and past the table
with four layers.  In whatever row it has, the search finds the last threshold reached, but
for two details: it takes a threshold that is met exactly as missed, except the first, and
it looks no further when the first is missed, which is wrong in the two rows that begin out
of order.
-/
import NetworkEmulator.Model.PhyLayer

namespace NetworkEmulator.Channel

open LinearSearch

/-- The index of the last threshold of a row that does not exceed the SINR, or -1. -/
def BestIndex (row : List ℚ) (sinr : ℚ) (i : ℤ) : Prop :=
  (i = -1 ∧ ∀ t ∈ row, sinr < t) ∨
    ∃ n : ℕ, i = n ∧ IsGreatest {k | ∃ t, row[k]? = some t ∧ t ≤ sinr} n

/-- The SINR meets no threshold exactly, but for the first, and below the first it is below
all. -/
def OffThresholds (row : List ℚ) (sinr : ℚ) : Prop :=
  (∀ t ∈ row.tail, t ≠ sinr) ∧ (sinr < row.headD 0 → ∀ t ∈ row.tail, sinr < t)

instance (row : List ℚ) (sinr : ℚ) : Decidable (OffThresholds row sinr) :=
  inferInstanceAs (Decidable (_ ∧ (_ → _)))

/-! ### The table -/

/-- The table has five times four rows of 28 thresholds for either modulation, no two rows of
one resource block group size are the same, and behind their first entries the rows
ascend. -/
theorem mcsSinr_shape (m : Modulation) : (mcsSinr m).length = 5 ∧
    ∀ rows ∈ mcsSinr m, rows.length = 4 ∧ rows.Nodup ∧
      ∀ row ∈ rows, row.length = 28 ∧ row.tail.Pairwise (· < ·) := by
  cases m <;> decide +kernel

theorem getRbgSndex_lt (size : ℤ) : getRbgSndex size < 5 := by
  unfold getRbgSndex
  cases h : rbgSizes.findIdx? (· == size) with
  | none => simp
  | some i =>
      obtain ⟨hi, -⟩ := List.findIdx?_eq_some_iff_getElem.mp h
      exact hi

/-! ### The search -/

/-- A higher SINR never leads to a lower MCS. -/
theorem mcsIndex_mono (row : List ℚ) : Monotone (PhyLayer.mcsIndex row) := by
  intro s s' hle
  unfold PhyLayer.mcsIndex
  have hstop : stop (fun t => decide (t < s)) row.tail ≤ stop (fun t => decide (t < s')) row.tail :=
    stop_mono fun t _ ht => by
      rw [decide_eq_true_eq] at ht ⊢
      exact lt_of_lt_of_le ht hle
  by_cases hs : s < row.headD 0
  · rw [if_pos hs]
    split <;> omega
  · rw [if_neg hs, if_neg fun hs' => hs (lt_of_le_of_lt hle hs')]
    exact_mod_cast hstop

/-- The last threshold reached, when the first one is. -/
theorem isGreatest_reached {a sinr : ℚ} {rest : List ℚ} (hrest : rest.Pairwise (· ≤ ·))
    (hfirst : a ≤ sinr) :
    IsGreatest {k | ∃ t, (a :: rest)[k]? = some t ∧ t ≤ sinr}
      (stop (fun t => decide (t ≤ sinr)) rest) := by
  have hfree := (unblocked_of_sorted hrest sinr).1
  constructor
  · cases hstop : stop (fun t => decide (t ≤ sinr)) rest with
    | zero => exact ⟨a, rfl, hfirst⟩
    | succ k =>
        have hk : k < rest.length := by
          have hle := stop_le (fun t => decide (t ≤ sinr)) rest
          omega
        refine ⟨rest[k], List.getElem?_eq_getElem hk, ?_⟩
        simpa using (hfree.lt_stop_iff hk).mp (by omega)
  · intro k hk
    obtain ⟨t, hget, ht⟩ := hk
    cases k with
    | zero => exact Nat.zero_le _
    | succ k =>
        rw [List.getElem?_cons_succ] at hget
        obtain ⟨hlt, rfl⟩ := List.getElem?_eq_some_iff.mp hget
        exact (hfree.lt_stop_iff hlt).mpr (decide_eq_true ht)

/-- Taking a threshold that is met for one that is missed makes no difference exactly when
none is met. -/
theorem stop_lt_eq_iff {sinr : ℚ} {rest : List ℚ} (hrest : rest.Pairwise (· ≤ ·)) :
    stop (fun t => decide (t < sinr)) rest = stop (fun t => decide (t ≤ sinr)) rest
      ↔ ∀ t ∈ rest, t ≠ sinr := by
  obtain ⟨hle, hlt⟩ := unblocked_of_sorted hrest sinr
  constructor
  · intro heq t ht hmet
    obtain ⟨k, hk, rfl⟩ := List.mem_iff_getElem.mp ht
    have hin := (hle.lt_stop_iff hk).mpr (by simp [hmet])
    have hout := (hlt.lt_stop_iff hk).not.mpr (by simp [hmet])
    omega
  · intro hne
    rw [hle.stop_eq, hlt.stop_eq]
    congr 1
    refine List.filter_congr fun t ht => ?_
    rw [decide_eq_decide]
    exact ⟨le_of_lt, fun h => lt_of_le_of_ne h (hne t ht)⟩

/-- **The search finds the last threshold reached** exactly when the SINR is off the
thresholds. -/
theorem bestIndex_iff {a : ℚ} {rest : List ℚ} (hrest : rest.Pairwise (· ≤ ·)) (sinr : ℚ) :
    BestIndex (a :: rest) sinr (PhyLayer.mcsIndex (a :: rest) sinr)
      ↔ OffThresholds (a :: rest) sinr := by
  unfold PhyLayer.mcsIndex OffThresholds BestIndex
  rw [List.headD_cons, List.tail_cons]
  by_cases hfirst : sinr < a
  · -- the search has given up at once
    rw [if_pos hfirst]
    constructor
    · intro h
      obtain ⟨-, hall⟩ | ⟨n, hn, -⟩ := h
      · have hmiss : ∀ t ∈ rest, sinr < t := fun t ht => hall t (List.mem_cons_of_mem a ht)
        exact ⟨fun t ht => (hmiss t ht).ne', fun _ => hmiss⟩
      · omega
    · intro h
      refine Or.inl ⟨rfl, fun t ht => ?_⟩
      rcases List.mem_cons.mp ht with rfl | ht
      · exact hfirst
      · exact h.2 hfirst t ht
  · rw [if_neg hfirst, ← stop_lt_eq_iff hrest]
    have hbest := isGreatest_reached hrest (not_lt.mp hfirst)
    constructor
    · intro h
      obtain ⟨hn, -⟩ | ⟨n, hn, hgreatest⟩ := h
      · omega
      · refine ⟨?_, fun hlt => absurd hlt hfirst⟩
        rw [hbest.unique hgreatest]
        exact_mod_cast hn
    · intro h
      refine Or.inr ⟨_, rfl, ?_⟩
      rw [h.1]
      exact hbest

/-! ### The row -/

namespace PhyLayer

/-- The row for the number of layers the UE has. -/
def rowOfLayers (p : PhyLayer) : Option (List ℚ) :=
  ((mcsSinr p.modulationM)[p.rbgLookupIndex]?).bind fun rows => rows[(p.layers - 1).toNat]?

/-- The row in `mcs_lookup` is the one for the layers, and for this SINR the index found in
it is the right one. -/
structure RightMcs (p : PhyLayer) (sinr : ℚ) : Prop where
  inside : p.mcsLookup.isSome
  row : p.mcsLookup = p.rowOfLayers
  index : ∀ row ∈ p.mcsLookup, BestIndex row sinr (mcsIndex row sinr)

/-- What the constructor leaves in `mcs_lookup`. -/
theorem make_mcsLookup (tx : Direction) (ue : PhyUeConfig) (enb : PhyEnbConfig)
    (hone : 1 ≤ min ue.nAntennas enb.mimoL) :
    ∃ rows ∈ mcsSinr enb.modulationM,
      (make tx true ue enb).mcsLookup = rows[(min ue.nAntennas enb.mimoL).toNat]? ∧
      (make tx true ue enb).rowOfLayers = rows[(min ue.nAntennas enb.mimoL - 1).toNat]? := by
  have hlt : getRbgSndex (enb.nScRbg.tdiv schNReDefault) < (mcsSinr enb.modulationM).length := by
    rw [(mcsSinr_shape _).1]
    exact getRbgSndex_lt _
  refine ⟨_, List.getElem_mem hlt, ?_, ?_⟩
  · unfold make
    simp only [if_true, mcsRow, initUpdateRates, List.getElem?_eq_getElem hlt, Option.bind_some]
    exact if_pos (by omega)
  · unfold make rowOfLayers
    simp only [if_true, initUpdateRates, List.getElem?_eq_getElem hlt, Option.bind_some]

/-- **The row is never the one for the number of layers.**  Below four layers it lies inside
the table, and in it the MCS found is the right one exactly off the thresholds; with four
layers it does not.  A higher SINR never leads to a lower MCS. -/
theorem mcsLookup_wrong_row (tx : Direction) (ue : PhyUeConfig) (enb : PhyEnbConfig)
    (hone : 1 ≤ min ue.nAntennas enb.mimoL) (hfour : min ue.nAntennas enb.mimoL ≤ 4) :
    (∀ sinr, ¬(make tx true ue enb).RightMcs sinr) ∧
      ((make tx true ue enb).mcsLookup.isSome ↔ min ue.nAntennas enb.mimoL < 4) ∧
      ∀ row ∈ (make tx true ue enb).mcsLookup, Monotone (mcsIndex row) ∧
        ∀ sinr, BestIndex row sinr (mcsIndex row sinr) ↔ OffThresholds row sinr := by
  obtain ⟨rows, hrows, hlookup, hright⟩ := make_mcsLookup tx ue enb hone
  obtain ⟨hlen, hnd, hrow⟩ := (mcsSinr_shape enb.modulationM).2 rows hrows
  refine ⟨fun sinr h => ?_, ?_, fun row hmem => ⟨mcsIndex_mono row, fun sinr => ?_⟩⟩
  · have hinside := h.inside
    have heq := h.row
    rw [hlookup, isSome_getElem?] at hinside
    rw [hlookup, hright] at heq
    have hsame := (List.getElem?_inj hinside hnd).mp heq
    omega
  · rw [hlookup, isSome_getElem?, hlen]
    omega
  · rw [hlookup] at hmem
    obtain ⟨hlong, hsorted⟩ := hrow row (List.mem_of_getElem? hmem)
    cases row with
    | nil => simp at hlong
    | cons a rest => exact bestIndex_iff (hsorted.imp le_of_lt) sinr

/-- Two layers, where a row is found and no threshold is 9.1 dB. -/
theorem mcsLookup_wrong_row_two :
    (1 : ℤ) ≤ min 2 2 ∧ (min 2 2 : ℤ) ≤ 4 ∧
      ∃ row, (make .dl true ⟨1, 1, 2, 0⟩ ⟨.qam64, 2000000000, 12, 2⟩).mcsLookup = some row ∧
        BestIndex row 9.1 11 ∧
        ¬(make .dl true ⟨1, 1, 2, 0⟩ ⟨.qam64, 2000000000, 12, 2⟩).RightMcs 9.1 := by
  obtain ⟨hwrong, hinside, hrow⟩ := mcsLookup_wrong_row .dl ⟨1, 1, 2, 0⟩
    ⟨.qam64, 2000000000, 12, 2⟩ (by decide) (by decide)
  obtain ⟨row, hlookup⟩ := Option.isSome_iff_exists.mp (hinside.mpr (by decide))
  have hoff : ((make .dl true ⟨1, 1, 2, 0⟩ ⟨.qam64, 2000000000, 12, 2⟩).mcsLookup.map fun row =>
      (decide (OffThresholds row 9.1), mcsIndex row 9.1)) = some (true, 11) := by decide +kernel
  rw [hlookup, Option.map_some, Option.some.injEq, Prod.mk.injEq, decide_eq_true_eq] at hoff
  have hbest := ((hrow row hlookup).2 9.1).mpr hoff.1
  rw [hoff.2] at hbest
  exact ⟨by decide, by decide, row, hlookup, hbest, hwrong 9.1⟩

/-- Two layers: the thresholds for three give MCS 11 at 9.1 dB, those for two give 10.  With
four layers there are no thresholds. -/
theorem mcsLookup_next_row :
    (make .dl true ⟨1, 1, 2, 0⟩ ⟨.qam64, 2000000000, 12, 2⟩).getMcsIndex 9.1 = some 11 ∧
      (make .dl true ⟨1, 1, 2, 0⟩ ⟨.qam64, 2000000000, 12, 2⟩).rowOfLayers.map (mcsIndex · 9.1)
        = some 10 ∧
      (make .dl true ⟨1, 1, 4, 0⟩ ⟨.qam64, 2000000000, 12, 4⟩).mcsLookup = none ∧
      ¬(make .dl true ⟨1, 1, 2, 0⟩ ⟨.qam64, 2000000000, 12, 2⟩).RightMcs 9.1 := by
  have hfound : (make .dl true ⟨1, 1, 2, 0⟩ ⟨.qam64, 2000000000, 12, 2⟩).getMcsIndex 9.1
      = some 11 := by decide +kernel
  have hright : (make .dl true ⟨1, 1, 2, 0⟩ ⟨.qam64, 2000000000, 12, 2⟩).rowOfLayers.map
      (mcsIndex · 9.1) = some 10 := by decide +kernel
  refine ⟨hfound, hright, by decide +kernel, fun h => ?_⟩
  rw [← h.row, ← getMcsIndex, hfound] at hright
  cases hright

end PhyLayer

end NetworkEmulator.Channel
