/-
The MCS chosen by spectral efficiency.

`channel_q_efficiency` asks the CQI table whether there is anything to send, and then
looks for the MCS from its second entry on.  Both steps have a gap.  The CQI table begins
below the first MCS, so between the two the first MCS is taken though its efficiency is
not reached; and the QAM64 table has one entry out of order, where the search stops too
early or goes one too far.  Everywhere else it finds the best MCS.
-/
import NetworkEmulator.Model.PhyLayer

namespace NetworkEmulator.Channel

open LinearSearch

/-- The best MCS for a spectral efficiency: the greatest efficiency of the table that does
not exceed it, and 0 when all do. -/
structure BestMcs (m : Modulation) (se : ℚ) (mcs : ℤ) (eff : ℚ) : Prop where
  greatest : (∃ e ∈ eff2Mcs m, e ≤ se) →
    IsGreatest {e | e ∈ eff2Mcs m ∧ e ≤ se} eff ∧ 0 ≤ mcs ∧ (eff2Mcs m)[mcs.toNat]? = some eff
  nothing : (∀ e ∈ eff2Mcs m, se < e) → eff = 0

/-- The best efficiency is 0 or one of the table. -/
theorem BestMcs.cases {m : Modulation} {se : ℚ} {mcs : ℤ} {eff : ℚ} (h : BestMcs m se mcs eff) :
    (eff = 0 ∧ ∀ e ∈ eff2Mcs m, se < e) ∨ IsGreatest {e | e ∈ eff2Mcs m ∧ e ≤ se} eff := by
  by_cases hsome : ∃ e ∈ eff2Mcs m, e ≤ se
  · exact Or.inr (h.greatest hsome).1
  · have hnone : ∀ e ∈ eff2Mcs m, se < e := fun e he => not_le.mp fun hle => hsome ⟨e, he, hle⟩
    exact Or.inl ⟨h.nothing hnone, hnone⟩

/-- It never exceeds the efficiency it is chosen for. -/
theorem BestMcs.le {m : Modulation} {se : ℚ} {mcs : ℤ} {eff : ℚ} (h : BestMcs m se mcs eff)
    (hse : 0 ≤ se) : eff ≤ se := by
  rcases h.cases with ⟨rfl, -⟩ | hbest
  · exact hse
  · exact hbest.1.2

/-- It never decreases. -/
theorem BestMcs.mono {m : Modulation} {se se' : ℚ} {mcs mcs' : ℤ} {eff eff' : ℚ}
    (h : BestMcs m se mcs eff) (h' : BestMcs m se' mcs' eff') (hle : se ≤ se')
    (hpos : ∀ e ∈ eff2Mcs m, 0 ≤ e) : eff ≤ eff' := by
  rcases h.cases with ⟨rfl, -⟩ | hbest
  · rcases h'.cases with ⟨rfl, -⟩ | hbest'
    · exact le_rfl
    · exact hpos eff' hbest'.1.1
  · rcases h'.cases with ⟨rfl, hnone⟩ | hbest'
    · exact absurd (hbest.1.2.trans hle) (not_le.mpr (hnone eff hbest.1.1))
    · exact hbest'.2 ⟨hbest.1.1, hbest.1.2.trans hle⟩

/-- The spectral efficiency is in neither of the gaps: from the first CQI to the first MCS,
and, for QAM64, from the entry out of order to the next. -/
def OffGaps (m : Modulation) (se : ℚ) : Prop :=
  ¬(0.1523 ≤ se ∧ se < 0.2344) ∧ ¬(m = .qam64 ∧ 2.5664 ≤ se ∧ se < 2.7305)

/-! ### The tables -/

/-- No MCS has less than the first. -/
theorem first_le_of_mem {m : Modulation} {e : ℚ} (he : e ∈ eff2Mcs m) : 0.2344 ≤ e := by
  have hall : ∀ e ∈ eff2Mcs m, (0.2344 : ℚ) ≤ e := by cases m <;> decide +kernel
  exact hall e he

theorem eff2Mcs_cons (m : Modulation) : eff2Mcs m = 0.2344 :: (eff2Mcs m).tail := by
  cases m <;> rfl

/-- There is something to send from the first CQI on. -/
theorem cqi_pos_iff (p : PhyLayer) (se : ℚ) : 0 < p.estimateCqiFromSe se ↔ 0.1523 ≤ se := by
  have hcons : ∃ rest, (eff2Cqi p.modulationM).tail = 0.1523 :: rest := by
    cases p.modulationM <;> exact ⟨_, rfl⟩
  obtain ⟨rest, hrest⟩ := hcons
  rw [PhyLayer.estimateCqiFromSe, hrest]
  have hpos := stop_pos_iff (p := fun e => decide (e ≤ se)) (a := (0.1523 : ℚ)) (l := rest)
  rw [decide_eq_true_eq] at hpos
  rw [← hpos]
  exact Int.natCast_pos

/-- The QAM64 table: the part up to the two entries in the wrong order, these, and the part
from there on. -/
theorem eff2Mcs_qam64 : ∃ low high : List ℚ,
    eff2Mcs .qam64 = (0.2344 :: low) ++ ([2.5703, 2.5664] ++ 2.7305 :: high) ∧
      (0.2344 :: low).Pairwise (· ≤ ·) ∧ (2.7305 :: high).Pairwise (· ≤ ·) ∧
      ∀ e ∈ (0.2344 : ℚ) :: low, e < 2.5664 :=
  ⟨((eff2Mcs .qam64).take 16).tail, (eff2Mcs .qam64).drop 19, by decide +kernel⟩

/-! ### The search in the MCS table -/

/-- Where the search in the MCS table stops. -/
def mcsStop (m : Modulation) (se : ℚ) : ℕ :=
  stop (fun e => decide (e ≤ se)) (eff2Mcs m).tail

/-- What the search finds is the best. -/
def Finds (m : Modulation) (se : ℚ) : Prop :=
  ∃ e, (eff2Mcs m)[mcsStop m se]? = some e ∧ IsGreatest {e | e ∈ eff2Mcs m ∧ e ≤ se} e

theorem finds_qam256 {se : ℚ} (hse : 0.2344 ≤ se) : Finds .qam256 se := by
  have hsorted : (eff2Mcs .qam256).Pairwise (· ≤ ·) := by decide +kernel
  exact exists_isGreatest hsorted hse

/-- A bound below the two is searched for in the part before them. -/
theorem finds_qam64_low {se : ℚ} (hse : 0.2344 ≤ se) (hlt : se < 2.5664) : Finds .qam64 se := by
  obtain ⟨low, high, htab, hlow, hhigh, -⟩ := eff2Mcs_qam64
  obtain ⟨e, hget, ⟨hmem, hle⟩, hbest⟩ := exists_isGreatest hlow hse
  have hstop : mcsStop .qam64 se = stop (fun e => decide (e ≤ se)) low := by
    rw [mcsStop, htab]
    exact stop_append_of_neg (by rw [decide_eq_false_iff_not]; linarith)
  have hin : stop (fun e => decide (e ≤ se)) low < ((0.2344 : ℚ) :: low).length :=
    Nat.lt_succ_of_le (stop_le _ _)
  refine ⟨e, ?_, ⟨?_, hle⟩, ?_⟩
  · rw [hstop, htab, List.getElem?_append_left hin]
    exact hget
  · rw [htab]
    exact List.mem_append_left _ hmem
  · intro x ⟨hx, hxse⟩
    rw [htab, List.mem_append] at hx
    refine hbest ⟨hx.resolve_right fun hx => ?_, hxse⟩
    -- the other entries are all above the bound
    rcases List.mem_append.mp hx with hx | hx
    · simp only [List.mem_cons, List.not_mem_nil, or_false] at hx
      rcases hx with rfl | rfl <;> linarith
    · have hge : 2.7305 ≤ x := by
        rcases List.mem_cons.mp hx with rfl | hx
        · exact le_rfl
        · exact (List.pairwise_cons.mp hhigh).1 x hx
      linarith

/-- Where the search stops once it is past the two. -/
private theorem mcsStop_past {low rest : List ℚ} (se : ℚ)
    (htab : eff2Mcs .qam64 = (0.2344 :: low) ++ ([2.5703, 2.5664] ++ rest))
    (hlow : ∀ e ∈ (0.2344 : ℚ) :: low, e < 2.5664) (hse : 2.5703 ≤ se) :
    mcsStop .qam64 se = low.length + (2 + stop (fun e => decide (e ≤ se)) rest) := by
  have hpast : ∀ x ∈ low, decide (x ≤ se) = true := by
    intro x hx
    have hx := hlow x (List.mem_cons_of_mem _ hx)
    exact decide_eq_true (by linarith)
  have htwo : ∀ x ∈ [(2.5703 : ℚ), 2.5664], decide (x ≤ se) = true := by
    intro x hx
    simp only [List.mem_cons, List.not_mem_nil, or_false] at hx
    rcases hx with rfl | rfl <;> exact decide_eq_true (by linarith)
  rw [mcsStop, htab]
  refine (stop_append_of_all hpast).trans ?_
  rw [stop_append_of_all htwo]
  rfl

/-- For a bound from the next entry on, the search gets past the two to the sorted rest. -/
theorem finds_qam64_high {se : ℚ} (hse : 2.7305 ≤ se) : Finds .qam64 se := by
  obtain ⟨low, high, htab, -, hhigh, hsmall⟩ := eff2Mcs_qam64
  obtain ⟨e, hget, ⟨hmem, hle⟩, hbest⟩ := exists_isGreatest hhigh hse
  have hstop := mcsStop_past se htab hsmall (by linarith)
  rw [stop_cons_of_pos (p := fun e => decide (e ≤ se)) (decide_eq_true hse)] at hstop
  refine ⟨e, ?_, ⟨?_, hle⟩, ?_⟩
  · rw [hstop, htab, List.getElem?_append_right (by rw [List.length_cons]; omega),
      List.getElem?_append_right (by simp; omega), ← hget]
    congr 1
    simp
    omega
  · rw [htab]
    exact List.mem_append_right _ (List.mem_append_right _ hmem)
  · intro x ⟨hx, hxse⟩
    rw [htab, List.mem_append, List.mem_append] at hx
    have hfirst : (2.7305 : ℚ) ≤ e := hbest ⟨List.mem_cons_self .., hse⟩
    rcases hx with hx | hx | hx
    · linarith [hsmall x hx]
    · simp only [List.mem_cons, List.not_mem_nil, or_false] at hx
      rcases hx with rfl | rfl <;> linarith
    · exact hbest ⟨hx, hxse⟩

/-- Between, the search ends before the smaller of the two or right at it, and either way
another entry is nearer to the bound. -/
theorem not_finds_qam64 {se : ℚ} (hge : 2.5664 ≤ se) (hlt : se < 2.7305) :
    ¬Finds .qam64 se := by
  obtain ⟨low, high, htab, -, hhigh, hsmall⟩ := eff2Mcs_qam64
  intro hfinds
  obtain ⟨e, hget, -, hbest⟩ := hfinds
  have hmem : (2.5664 : ℚ) ∈ eff2Mcs .qam64 ∧ (2.5703 : ℚ) ∈ eff2Mcs .qam64 := by decide +kernel
  by_cases hfirst : se < 2.5703
  · have hstop : mcsStop .qam64 se = stop (fun e => decide (e ≤ se)) low := by
      rw [mcsStop, htab]
      exact stop_append_of_neg (by rw [decide_eq_false_iff_not]; linarith)
    have hin : stop (fun e => decide (e ≤ se)) low < ((0.2344 : ℚ) :: low).length :=
      Nat.lt_succ_of_le (stop_le _ _)
    rw [hstop, htab, List.getElem?_append_left hin] at hget
    have hsmaller := hsmall e (List.mem_of_getElem? hget)
    have hle := hbest ⟨hmem.1, hge⟩
    linarith
  · have hstop := mcsStop_past se htab hsmall (by linarith)
    rw [stop_cons_of_neg (p := fun e => decide (e ≤ se))
      (decide_eq_false (not_le.mpr hlt))] at hstop
    have hle := hbest ⟨hmem.2, not_lt.mp hfirst⟩
    have hval : e = 2.5664 := by
      rw [hstop, htab, List.getElem?_append_right (by rw [List.length_cons]; omega)] at hget
      rw [List.length_cons, show low.length + (2 + 0) - (low.length + 1) = 1 by omega] at hget
      exact (Option.some.inj hget).symm
    rw [hval] at hle
    norm_num at hle

/-- **From the first MCS on the search finds the best, outside the gap of QAM64.** -/
theorem finds_iff {m : Modulation} {se : ℚ} (hse : 0.2344 ≤ se) : Finds m se ↔ OffGaps m se := by
  have hfirst : ¬(0.1523 ≤ se ∧ se < 0.2344) := fun h => absurd hse (not_le.mpr h.2)
  unfold OffGaps
  rw [and_iff_right hfirst]
  cases m with
  | qam64 =>
      by_cases hge : 2.5664 ≤ se
      · by_cases hlt : se < 2.7305
        · exact iff_of_false (not_finds_qam64 hge hlt) fun h => h ⟨rfl, hge, hlt⟩
        · exact iff_of_true (finds_qam64_high (not_lt.mp hlt)) fun h => hlt h.2.2
      · exact iff_of_true (finds_qam64_low hse (not_le.mp hge)) fun h => hge h.2.1
  | qam256 => exact iff_of_true (finds_qam256 hse) fun h => by cases h.1

/-! ### What the layer uses -/

namespace PhyLayer

variable (p : PhyLayer) (f : ℕ)

/-- The MCS for a spectral efficiency. -/
def mcsFor (se : ℚ) : ℤ := (p.channelQEfficiency f se).mcsV f

/-- The effective efficiency for a spectral efficiency. -/
def effFor (se : ℚ) : ℚ := (p.channelQEfficiency f se).effV f

/-- With nothing to send, the efficiency is 0. -/
theorem for_of_lt {se : ℚ} (hse : se < 0.1523) : p.mcsFor f se = 0 ∧ p.effFor f se = 0 := by
  have hcqi : ¬0 < p.estimateCqiFromSe se := by
    rw [cqi_pos_iff]
    exact not_le.mpr hse
  unfold mcsFor effFor channelQEfficiency
  simp only [if_neg hcqi, setChannelQ, Function.update_self, and_self]

/-- With something to send, MCS and efficiency are those the search finds. -/
theorem for_of_le {se : ℚ} (hse : 0.1523 ≤ se) :
    p.mcsFor f se = mcsStop p.modulationM se ∧
      (eff2Mcs p.modulationM)[mcsStop p.modulationM se]? = some (p.effFor f se) := by
  have hcqi : 0 < p.estimateCqiFromSe se := (cqi_pos_iff p se).mpr hse
  have hin : mcsStop p.modulationM se < (eff2Mcs p.modulationM).length := by
    rw [eff2Mcs_cons, List.length_cons]
    exact Nat.lt_succ_of_le (stop_le _ _)
  unfold mcsFor effFor channelQEfficiency
  simp only [if_pos hcqi, setChannelQ, Function.update_self, estimateMcsFromSe]
  exact ⟨rfl, by rw [List.getD_eq_getElem?_getD, ← mcsStop, List.getElem?_eq_getElem hin]; rfl⟩

/-- **The best MCS is chosen exactly outside the gaps.** -/
theorem bestMcs_iff (se : ℚ) :
    BestMcs p.modulationM se (p.mcsFor f se) (p.effFor f se) ↔ OffGaps p.modulationM se := by
  by_cases hsmall : se < 0.1523
  · -- nothing is sent, and no MCS is that small
    obtain ⟨hmcs, heff⟩ := p.for_of_lt f hsmall
    refine iff_of_true ⟨fun h => ?_, fun _ => heff⟩ ⟨fun h => ?_, fun h => ?_⟩
    · obtain ⟨e, he, hle⟩ := h
      linarith [first_le_of_mem he]
    · linarith [h.1]
    · linarith [h.2.1]
  · obtain ⟨hmcs, hget⟩ := p.for_of_le f (not_lt.mp hsmall)
    by_cases hgap : se < 0.2344
    · -- an MCS is chosen, though none is that small
      refine iff_of_false (fun h => ?_) fun h => h.1 ⟨not_lt.mp hsmall, hgap⟩
      have hzero := h.nothing fun e he => lt_of_lt_of_le hgap (first_le_of_mem he)
      have hmem := first_le_of_mem (List.mem_of_getElem? hget)
      rw [hzero] at hmem
      norm_num at hmem
    · have hfirst : (0.2344 : ℚ) ∈ eff2Mcs p.modulationM := by
        rw [eff2Mcs_cons]
        exact List.mem_cons_self ..
      rw [← finds_iff (not_lt.mp hgap)]
      constructor
      · intro h
        exact ⟨_, hget, (h.greatest ⟨_, hfirst, not_lt.mp hgap⟩).1⟩
      · intro hfinds
        obtain ⟨e, hget', hbest⟩ := hfinds
        obtain rfl : e = p.effFor f se := Option.some.inj (hget'.symm.trans hget)
        refine ⟨fun _ => ⟨hbest, ?_, ?_⟩, fun h => ?_⟩
        · rw [hmcs]
          exact Int.natCast_nonneg _
        · rw [hmcs]
          exact hget
        · exact absurd (h _ hfirst) hgap

/-- **The effective efficiency is the best of the MCS table exactly outside the gaps**, and
outside them it never exceeds the estimated one and never decreases with it. -/
theorem efficiency_best :
    (∀ se, 0 ≤ se → (BestMcs p.modulationM se (p.mcsFor f se) (p.effFor f se)
      ↔ OffGaps p.modulationM se)) ∧
    ∀ se se', 0 ≤ se → se ≤ se' → OffGaps p.modulationM se → OffGaps p.modulationM se' →
      p.effFor f se ≤ se ∧ p.effFor f se ≤ p.effFor f se' := by
  refine ⟨fun se _ => p.bestMcs_iff f se, fun se se' hse hle hoff hoff' => ?_⟩
  have hbest := (p.bestMcs_iff f se).mpr hoff
  have hbest' := (p.bestMcs_iff f se').mpr hoff'
  refine ⟨hbest.le hse, hbest.mono hbest' hle fun e he => ?_⟩
  linarith [first_le_of_mem he]

/-- QAM64 at a spectral efficiency of 1. -/
theorem efficiency_best_one :
    (0 : ℚ) ≤ 1 ∧ (make .dl false ⟨1, 1, 2, 0⟩ ⟨.qam64, 2000000000, 12, 2⟩).effFor 0 1 ≤ 1 ∧
      BestMcs .qam64 1 6 0.8770 := by
  have hoff : OffGaps .qam64 1 := by
    unfold OffGaps
    norm_num
  have hall := efficiency_best (make .dl false ⟨1, 1, 2, 0⟩ ⟨.qam64, 2000000000, 12, 2⟩) 0
  have hbest := (hall.1 1 zero_le_one).mpr hoff
  have hmcs : (make .dl false ⟨1, 1, 2, 0⟩ ⟨.qam64, 2000000000, 12, 2⟩).mcsFor 0 1 = 6 := by
    decide +kernel
  have heff : (make .dl false ⟨1, 1, 2, 0⟩ ⟨.qam64, 2000000000, 12, 2⟩).effFor 0 1 = 0.8770 := by
    decide +kernel
  rw [hmcs, heff] at hbest
  exact ⟨zero_le_one, (hall.2 1 1 zero_le_one le_rfl hoff hoff).1, hbest⟩

/-- At 0.2 the first MCS is chosen, which takes more; at 2.6 the one before the last that
would fit. -/
theorem efficiency_misses :
    (make .dl false ⟨1, 1, 2, 0⟩ ⟨.qam64, 2000000000, 12, 2⟩).effFor 0 0.2 = 0.2344 ∧
      (make .dl false ⟨1, 1, 2, 0⟩ ⟨.qam64, 2000000000, 12, 2⟩).effFor 0 2.6 = 2.5664 ∧
      (2.5703 : ℚ) ∈ eff2Mcs .qam64 ∧
      ¬∀ se, 0 ≤ se → BestMcs .qam64 se
        ((make .dl false ⟨1, 1, 2, 0⟩ ⟨.qam64, 2000000000, 12, 2⟩).mcsFor 0 se)
        ((make .dl false ⟨1, 1, 2, 0⟩ ⟨.qam64, 2000000000, 12, 2⟩).effFor 0 se) := by
  have hlow : (make .dl false ⟨1, 1, 2, 0⟩ ⟨.qam64, 2000000000, 12, 2⟩).effFor 0 0.2 = 0.2344 := by
    decide +kernel
  refine ⟨hlow, by decide +kernel, by decide +kernel, fun hall => ?_⟩
  have hle := (hall 0.2 (by norm_num)).le (by norm_num)
  rw [hlow] at hle
  norm_num at hle

end PhyLayer

end NetworkEmulator.Channel
