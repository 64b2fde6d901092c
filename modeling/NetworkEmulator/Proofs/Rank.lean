/-
The rank and the channel it was chosen for.

`estimate_ri` looks for the first threshold the SINR does not exceed, among those of the
layers there are.  When it finds none the rank is left as it was, though this is where the
channel is best: the rank is then the one an earlier, worse channel led to.
-/
import NetworkEmulator.Model.PhyLayer

namespace NetworkEmulator.Channel

open LinearSearch

namespace PhyLayer

/-- How many of the rank thresholds an SINR exceeds. -/
def exceeded (p : PhyLayer) (sinr : ℚ) : ℕ :=
  ((riThres p.modulationM).filter fun t => decide (t < sinr)).length

/-- The rank for an SINR, by itself. -/
def rankFor (p : PhyLayer) (sinr : ℚ) : ℤ := min (min p.mimoL p.maxRi) (1 + p.exceeded sinr)

/-- Not all thresholds of the layers there are are exceeded. -/
def Below (p : PhyLayer) (sinr : ℚ) : Prop := (p.exceeded sinr : ℤ) < p.maxRi

instance (p : PhyLayer) (sinr : ℚ) : Decidable (p.Below sinr) :=
  inferInstanceAs (Decidable ((p.exceeded sinr : ℤ) < p.maxRi))

/-- The SINR is below the highest threshold, or the last one before it that was, if any,
exceeded all other thresholds. -/
def RankSettled (p : PhyLayer) (past : List ℚ) (sinr : ℚ) : Prop :=
  p.Below sinr ∨
    ∀ last ∈ (past.filter fun s => decide (p.Below s)).getLast?, p.exceeded last + 1 = p.maxRi

theorem riThres_sorted (m : Modulation) : (riThres m).Pairwise (· ≤ ·) := by
  cases m <;> decide +kernel

theorem length_riThres (m : Modulation) : (riThres m).length = 3 := by
  cases m <;> rfl

/-- The thresholds exceeded come first. -/
theorem stop_riThres (p : PhyLayer) (sinr : ℚ) :
    stop (fun t => decide (t < sinr)) (riThres p.modulationM) = p.exceeded sinr :=
  (unblocked_of_sorted (riThres_sorted p.modulationM) sinr).2.stop_eq

theorem exceeded_mono (p : PhyLayer) : Monotone p.exceeded := by
  intro s s' hle
  refine List.Sublist.length_le (List.monotone_filter_right _ fun t ht => ?_)
  rw [decide_eq_true_eq] at ht ⊢
  exact lt_of_lt_of_le ht hle

theorem rankFor_mono (p : PhyLayer) : Monotone p.rankFor := by
  intro s s' hle
  have hcount : (p.exceeded s : ℤ) ≤ p.exceeded s' := by exact_mod_cast p.exceeded_mono hle
  exact min_le_min le_rfl (by omega)

/-! ### One renewal -/

/-- What `estimate_ri` reads and does not write. -/
structure SameRankConfig (p q : PhyLayer) : Prop where
  tx : q.tx = p.tx
  modulationM : q.modulationM = p.modulationM
  maxRi : q.maxRi = p.maxRi
  mimoL : q.mimoL = p.mimoL

theorem renewRi_sameRankConfig (p : PhyLayer) (sinr : ℚ) : SameRankConfig p (p.renewRi sinr) := by
  unfold renewRi estimateRi
  split
  · split <;> exact ⟨rfl, rfl, rfl, rfl⟩
  · exact ⟨rfl, rfl, rfl, rfl⟩

/-- A downlink layer with thresholds for all its layers. -/
structure RankOk (p : PhyLayer) : Prop where
  dl : p.tx = .dl
  three : p.maxRi ≤ 3
  mimo : p.maxRi ≤ p.mimoL

/-- **The rank is renewed exactly when not all thresholds are exceeded.** -/
theorem renewRi_currentRi {p : PhyLayer} (hp : RankOk p) (sinr : ℚ) :
    (p.renewRi sinr).currentRi
      = if p.Below sinr then (p.exceeded sinr + 1 : ℤ) else p.currentRi := by
  have htest : (fun t => decide (sinr ≤ t)) = fun t => !decide (t < sinr) := by
    funext t
    simp [← not_lt]
  have hfind : ((riThres p.modulationM).take p.maxRi.toNat).findIdx? (fun t => decide (sinr ≤ t))
      = if p.Below sinr then some (p.exceeded sinr) else none := by
    rw [htest, findIdx?_eq, stop_take, stop_riThres, List.length_take, length_riThres]
    have hthree := hp.three
    by_cases hbelow : p.Below sinr
    · have hlt : (p.exceeded sinr : ℤ) < p.maxRi := hbelow
      rw [if_pos hbelow, if_pos (by omega), Nat.min_eq_right (by omega)]
    · have hle : ¬(p.exceeded sinr : ℤ) < p.maxRi := hbelow
      rw [if_neg hbelow, if_neg (by omega)]
  unfold renewRi estimateRi
  simp only [hp.dl, hfind]
  by_cases hbelow : p.Below sinr
  · have hlt : (p.exceeded sinr : ℤ) < p.maxRi := hbelow
    have hmimo := hp.mimo
    simp only [if_pos hbelow]
    omega
  · simp only [if_neg hbelow]

theorem rankFor_eq {p : PhyLayer} (hp : RankOk p) (sinr : ℚ) :
    p.rankFor sinr = if p.Below sinr then (p.exceeded sinr + 1 : ℤ) else p.maxRi := by
  have hmimo := hp.mimo
  unfold rankFor
  by_cases hbelow : p.Below sinr
  · have hlt : (p.exceeded sinr : ℤ) < p.maxRi := hbelow
    rw [if_pos hbelow]
    omega
  · have hle : ¬(p.exceeded sinr : ℤ) < p.maxRi := hbelow
    rw [if_neg hbelow]
    omega

/-! ### A history -/

/-- The rank after a history of SINR values. -/
def rankAfter (p : PhyLayer) (past : List ℚ) : ℤ := (past.foldl renewRi p).currentRi

theorem foldl_sameRankConfig (p : PhyLayer) (past : List ℚ) :
    SameRankConfig p (past.foldl renewRi p) := by
  induction past using List.reverseRecOn with
  | nil => exact ⟨rfl, rfl, rfl, rfl⟩
  | append_singleton past s ih =>
      rw [List.foldl_append]
      have hlast := renewRi_sameRankConfig (past.foldl renewRi p) s
      exact ⟨hlast.tx.trans ih.tx, hlast.modulationM.trans ih.modulationM,
        hlast.maxRi.trans ih.maxRi, hlast.mimoL.trans ih.mimoL⟩

/-- One more value. -/
theorem rankAfter_concat {p : PhyLayer} (hp : RankOk p) (past : List ℚ) (sinr : ℚ) :
    p.rankAfter (past ++ [sinr])
      = if p.Below sinr then (p.exceeded sinr + 1 : ℤ) else p.rankAfter past := by
  have hsame := foldl_sameRankConfig p past
  have hok : RankOk (past.foldl renewRi p) :=
    ⟨hsame.tx.trans hp.dl, hsame.maxRi ▸ hp.three, by rw [hsame.maxRi, hsame.mimoL]; exact hp.mimo⟩
  rw [rankAfter, List.foldl_append]
  refine (renewRi_currentRi hok sinr).trans ?_
  simp only [Below, exceeded, hsame.modulationM, hsame.maxRi]
  rfl

/-- **The rank is that of the last SINR below the highest threshold.** -/
theorem rankAfter_eq {p : PhyLayer} (hp : RankOk p) (past : List ℚ) :
    p.rankAfter past = ((past.filter fun s => decide (p.Below s)).getLast?).elim p.currentRi
      fun last => p.exceeded last + 1 := by
  induction past using List.reverseRecOn with
  | nil => rfl
  | append_singleton past s ih =>
      rw [rankAfter_concat hp, List.filter_append]
      by_cases hbelow : p.Below s
      · rw [if_pos hbelow, List.filter_cons_of_pos (by simpa using hbelow), List.filter_nil,
          List.getLast?_concat]
        rfl
      · rw [if_neg hbelow, List.filter_cons_of_neg (by simpa using hbelow), List.filter_nil,
          List.append_nil, ih]

/-- The rank is the highest while every SINR exceeded all thresholds, and otherwise as the
last one that did not left it. -/
theorem rankAfter_eq_maxRi_iff {p : PhyLayer} (hp : RankOk p) (hnew : p.currentRi = p.maxRi)
    (past : List ℚ) :
    p.rankAfter past = p.maxRi ↔
      ∀ last ∈ (past.filter fun s => decide (p.Below s)).getLast?,
        p.exceeded last + 1 = p.maxRi := by
  rw [rankAfter_eq hp]
  cases (past.filter fun s => decide (p.Below s)).getLast? with
  | none => exact iff_of_true hnew fun last hlast => by cases hlast
  | some last =>
      refine ⟨fun h r hr => ?_, fun h => h last rfl⟩
      rw [← Option.some.inj hr]
      exact h

theorem make_rankOk (mcsTables : Bool) (ue : PhyUeConfig) (enb : PhyEnbConfig)
    (hlayers : min ue.nAntennas enb.mimoL ≤ 3) :
    RankOk (make .dl mcsTables ue enb) ∧
      (make .dl mcsTables ue enb).currentRi = (make .dl mcsTables ue enb).maxRi := by
  unfold make
  cases mcsTables <;> exact ⟨⟨rfl, hlayers, min_le_right _ _⟩, rfl⟩

/-- **The rank is the one for the present SINR exactly when that is below the highest
threshold or the rank has settled at the highest before.**  This is so for every downlink
layer with at most three layers and after every history, and the rank for an SINR by itself
never falls when the SINR rises. -/
theorem rank_of_present (mcsTables : Bool) (ue : PhyUeConfig) (enb : PhyEnbConfig)
    (hlayers : min ue.nAntennas enb.mimoL ≤ 3) :
    (∀ past sinr, (make .dl mcsTables ue enb).rankAfter (past ++ [sinr])
        = (make .dl mcsTables ue enb).rankFor sinr
      ↔ (make .dl mcsTables ue enb).RankSettled past sinr) ∧
    Monotone (make .dl mcsTables ue enb).rankFor := by
  obtain ⟨hok, hnew⟩ := make_rankOk mcsTables ue enb hlayers
  refine ⟨fun past sinr => ?_, rankFor_mono _⟩
  rw [rankAfter_concat hok, rankFor_eq hok, RankSettled]
  by_cases hbelow : (make .dl mcsTables ue enb).Below sinr
  · rw [if_pos hbelow, if_pos hbelow]
    exact iff_of_true rfl (Or.inl hbelow)
  · rw [if_neg hbelow, if_neg hbelow, rankAfter_eq_maxRi_iff hok hnew, or_iff_right hbelow]

/-- Two layers: the SINR rises to 8 dB, where the rank becomes 2, and on to 30 dB. -/
theorem rank_of_present_settled :
    (make .dl false ⟨1, 1, 2, 0⟩ ⟨.qam64, 2000000000, 12, 2⟩).rankAfter ([0, 8] ++ [30])
      = (make .dl false ⟨1, 1, 2, 0⟩ ⟨.qam64, 2000000000, 12, 2⟩).rankFor 30 :=
  ((rank_of_present false ⟨1, 1, 2, 0⟩ ⟨.qam64, 2000000000, 12, 2⟩ (by decide)).1 [0, 8] 30).mpr
    (by unfold RankSettled; decide +kernel)

/-- Two layers: at 30 dB the rank is 2, unless the SINR was 0 dB before. -/
theorem rank_keeps_past :
    (make .dl false ⟨1, 1, 2, 0⟩ ⟨.qam64, 2000000000, 12, 2⟩).rankAfter [30] = 2 ∧
      (make .dl false ⟨1, 1, 2, 0⟩ ⟨.qam64, 2000000000, 12, 2⟩).rankFor 30 = 2 ∧
      (make .dl false ⟨1, 1, 2, 0⟩ ⟨.qam64, 2000000000, 12, 2⟩).rankAfter [0, 30] = 1 := by
  decide +kernel

end PhyLayer

end NetworkEmulator.Channel
