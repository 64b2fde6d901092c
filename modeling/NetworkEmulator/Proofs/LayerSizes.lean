/-
The layer that the simulator sizes is the one that estimates the channel.

Of `phy_layer`, `Simulator` has what the size of the grid decides: vectors with an entry for each
RBG, and the rate of an RBG, which is not there for an RBG outside of them.  `ChannelState` has
the periods, the SINR and the metrics as well, and its vectors have no end.  Both come from one
configuration, and both find the same rate for every RBG that the layer was sized for
(`Shows.estimateTp`), so nothing that the longer model says of rates is about an entry that the
vectors do not have.
-/
import NetworkEmulator.Model.ChannelState

namespace NetworkEmulator

/-- An `int` is never above 7 GHz, so the overheads of the second frequency range are not used. -/
theorem PhyLayer.getOverhead_eq (f : BitVec 32) :
    getOverhead f .dl = 14 / 100 ∧ getOverhead f .ul = 8 / 100 := by
  have hlow : ¬7000000000 < f.toInt := by
    have hlt := BitVec.toInt_lt (x := f)
    norm_num at hlt
    omega
  exact ⟨if_neg hlow, if_neg hlow⟩

/-- A vector with an entry for each RBG, after one of them is written. -/
private theorem set_map_range {α : Type} (v : ℕ → α) (n f : ℕ) (x : α) :
    ((List.range n).map v).set f x = (List.range n).map (Function.update v f x) := by
  refine List.ext_getElem? fun i => ?_
  rw [List.getElem?_set, List.getElem?_map, List.getElem?_map, List.length_map, List.length_range]
  by_cases hi : i < n
  · rw [List.getElem?_range hi, Option.map_some, Option.map_some]
    by_cases hf : f = i
    · rw [if_pos hf, if_pos (hf ▸ hi), hf, Function.update_self]
    · rw [if_neg hf, Function.update_of_ne (Ne.symm hf)]
  · have hnone : (List.range n)[i]? = none := List.getElem?_eq_none (by simpa using hi)
    rw [hnone, Option.map_none, Option.map_none]
    split
    · rename_i hf
      exact if_neg (hf ▸ hi)
    · rfl

namespace Emulation.PhyLayer

variable {K : Type} {p : PhyLayer K} {q : NetworkEmulator.PhyLayer} {f : ℕ}

/-- `q` has of the layer `p` what the simulator sizes. -/
structure Shows (p : PhyLayer K) (q : NetworkEmulator.PhyLayer) : Prop where
  tx : q.tx = p.tx
  nScRb : q.nScRb = p.nScRb
  nRbs : q.nRbs = p.nRbs
  overhead : q.overhead = p.overhead
  scalingFactor : q.scalingFactor = p.scalingFactor
  currentRi : q.currentRi = p.currentRi
  effV : q.effV = (List.range p.nRbs).map p.effV
  tpV : q.tpV = (List.range p.nRbs).map p.tpV
  mcsV : q.mcsV = (List.range p.nRbs).map p.mcsV

/-- **Both are made of one configuration.** -/
theorem shows_make (M : LogMath) (tx : Direction) (id nRbs : ℕ) (c : PhyConfig K)
    (metricV : ℕ → K) (uniformStochastics rayleigh : Draws) :
    (make M tx id nRbs c metricV uniformStochastics rayleigh).Shows
      ((NetworkEmulator.PhyLayer.make tx ⟨c.scalingFactor, c.ue.nAntennas⟩
        ⟨c.enb.frequency, c.enb.mimoL, nRbs, c.enb.nScRbg⟩).init nRbs) := by
  have hzero : ∀ {α : Type} (x : α), List.replicate (nRbs : ℤ).toNat x =
      (List.range nRbs).map fun _ => x := by
    intro α x
    rw [Int.toNat_natCast, List.map_const', List.length_range]
  have hlayer : ∃ lookup, (make M tx id nRbs c metricV uniformStochastics rayleigh).toPhyLayer =
      { Channel.PhyLayer.make tx false c.ue c.enb with
        mcsTables := c.mcsTables, mcsLookup := lookup } := by
    show ∃ lookup, Channel.PhyLayer.make tx c.mcsTables c.ue c.enb = _
    cases c.mcsTables with
    | false => exact ⟨none, rfl⟩
    | true => exact ⟨_, rfl⟩
  obtain ⟨lookup, hlayer⟩ := hlayer
  refine { tx := ?_, nScRb := ?_, nRbs := rfl, overhead := rfl, scalingFactor := rfl
           currentRi := ?_, effV := ?_, tpV := hzero 0, mcsV := ?_ }
  · rw [hlayer]
    rfl
  · rw [hlayer]
    rfl
  · rw [hlayer]
    rfl
  · rw [hlayer]
    exact hzero 0
  · rw [hlayer]
    exact hzero 0

/-- **Both find the same rate for an RBG of the layer**, and there is none for another. -/
theorem Shows.estimateTp (h : p.Shows q) :
    (f < p.nRbs → ∃ q', q.estimateTp f = some q' ∧ (p.estimateRate f).Shows q') ∧
      (p.nRbs ≤ f → q.estimateTp f = none) := by
  have heff : q.effV[f]? = if f < p.nRbs then some (p.effV f) else none := by
    rw [h.effV, List.getElem?_map]
    by_cases hf : f < p.nRbs
    · rw [List.getElem?_range hf, if_pos hf]
      rfl
    · rw [List.getElem?_eq_none (by simpa using hf), if_neg hf]
      rfl
  constructor
  · intro hf
    have hlen : f < q.tpV.length := by
      rw [h.tpV, List.length_map, List.length_range]
      exact hf
    refine ⟨{ q with tpV := q.tpV.set f (p.rateOf f) }, ?_, ?_⟩
    · rw [if_pos hf] at heff
      simp only [NetworkEmulator.PhyLayer.estimateTp, heff, if_pos hlen, rateOf, h.currentRi,
        h.nScRb, h.overhead, h.scalingFactor]
    · -- The metric is estimated after the rate, and leaves it.
      have hrest : (p.estimateRate f).tpV = Function.update p.tpV f (p.rateOf f) ∧
          (p.estimateRate f).nRbs = p.nRbs := by
        rw [estimateRate, PhyMetrics.estimateMetric]
        split <;> exact ⟨rfl, rfl⟩
      refine { tx := h.tx, nScRb := h.nScRb, nRbs := ?_, overhead := h.overhead
               scalingFactor := h.scalingFactor, currentRi := h.currentRi, effV := ?_, tpV := ?_
               mcsV := ?_ }
      · rw [hrest.2]
        exact h.nRbs
      · rw [hrest.2]
        exact h.effV
      · rw [hrest.1, hrest.2, ← set_map_range, ← h.tpV]
      · rw [hrest.2]
        exact h.mcsV
  · intro hf
    rw [if_neg (not_lt.mpr hf)] at heff
    simp only [NetworkEmulator.PhyLayer.estimateTp, heff]

end Emulation.PhyLayer

end NetworkEmulator
