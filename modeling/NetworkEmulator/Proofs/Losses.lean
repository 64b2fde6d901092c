/-
What the error statistic of the PDCP layer counts.

`get_error` reports the `e_mean` of the IP buffer, and `fed` reads off it all that was
ever fed into it.  A packet that a full buffer refuses is fed as it is.  A block that
expires passes through the `int` of `drop_pkt`.  A packet that the AQM drops is fed to
the statistic of the packet handler, and not to this one.

`Books` is the balance of these three, kept by everything the layer does.  So the
statistic misses exactly what the AQM drops and the fractions the `int` cuts off.
-/
import NetworkEmulator.Proofs.Flow
import NetworkEmulator.Proofs.Frame
import NetworkEmulator.Proofs.Geometry
import NetworkEmulator.Proofs.Observe

namespace NetworkEmulator

/-! ### What was fed -/

namespace MeanHandler

/-- All that was ever fed into a statistic.  `step` divides by the number of steps, and
this multiplies by it again. -/
def fed (m : MeanHandler) : ℚ := m.totalValue * (m.totalCounter - 1) + m.tValue

theorem fed_addIf {verbosity : ℤ} (hv : 0 < verbosity) (m : MeanHandler) (v : ℚ) :
    (m.addIf verbosity v).fed = m.fed + v ∧
      (m.addIf verbosity v).totalCounter = m.totalCounter := by
  rw [addIf, if_pos hv]
  refine ⟨?_, rfl⟩
  simp only [fed, add]
  ring

theorem fed_stepIf {m : MeanHandler} (hm : 0 < m.totalCounter) (verbosity : ℤ) :
    (m.stepIf verbosity).fed = m.fed ∧ 0 < (m.stepIf verbosity).totalCounter := by
  unfold stepIf
  by_cases hv : 0 < verbosity
  · rw [if_pos hv]
    have hne : (m.totalCounter : ℚ) ≠ 0 := by
      have hpos : (0 : ℚ) < m.totalCounter := by exact_mod_cast hm
      exact hpos.ne'
    refine ⟨?_, by simp [step]⟩
    simp only [fed, step, Nat.cast_add, Nat.cast_one, add_sub_cancel_right]
    rw [div_mul_cancel₀ _ hne, add_zero]
  · rw [if_neg hv]
    exact ⟨rfl, hm⟩

end MeanHandler

/-- What `get_error` answers about the whole run is the mean, over the steps, of what was
fed before the last of them. -/
theorem IpBuffer.getError_total {b : IpBuffer} (hv : 0 < b.verbosity) :
    (b.getError false).1 * (b.eMean.totalCounter - 1)
      = bit2Mbit * (b.eMean.fed - b.eMean.tValue) * s2Ms := by
  rw [IpBuffer.getError, if_pos hv, MeanHandler.fed, add_sub_cancel_right]
  show bit2Mbit * b.eMean.totalValue * s2Ms * _ = _
  ring

/-! ### What was lost -/

/-- The bits of the packets refused at admission and of the blocks dropped. -/
def Observed.lostBits {H : Type} (o : Observed H) : ℚ :=
  weight IpPkt.size o.refused + weight IpPkt.size (o.dropped.flatMap HarqPkt.pkts)

/-! ### The books -/

/-- A block whose `bits` are those of its packets, none of which has a negative size. -/
structure HarqPkt.Measured (b : HarqPkt) : Prop where
  bits : b.bits = weight IpPkt.size b.pkts
  nonneg : ∀ p ∈ b.pkts, 0 ≤ p.size

theorem HarqPkt.Measured.bits_nonneg {b : HarqPkt} (h : b.Measured) : 0 ≤ b.bits := by
  rw [h.bits]
  exact weight_nonneg h.nonneg

/-- The blocks dropped are those of the AQM and the expired ones.  Of the latter, the
statistic has the whole bits. -/
structure Books {H : Type} (o : Observed H) (shelf : Shelf) (fed : ℚ)
    (aqm expired : List HarqPkt) : Prop where
  dropped : o.dropped.Perm (aqm ++ expired)
  measured : ∀ b ∈ aqm ++ expired, b.Measured
  dropLog : shelf.dropLog = aqm.flatMap HarqPkt.pkts ++ shelf.dropped
  fed : fed = weight IpPkt.size o.refused + weight (fun b => (truncToInt b.bits : ℚ)) expired

namespace Books

variable {H Env In : Type} [PacketHandler H Env In] {o o' : Observed H} {shelf shelf' : Shelf}
  {fed : ℚ} {aqm expired : List HarqPkt}

omit [PacketHandler H Env In] in
/-- What is not on record leaves the books alone. -/
theorem same (h : Books o shelf fed aqm expired) (hcalls : o'.calls = o.calls)
    (hdropped : shelf'.dropped = shelf.dropped) (hlog : shelf'.dropLog = shelf.dropLog) :
    Books o' shelf' fed aqm expired where
  dropped := by
    rw [Observed.dropped, hcalls]
    exact h.dropped
  measured := h.measured
  dropLog := by rw [hdropped, hlog, h.dropLog]
  fed := by
    rw [Observed.refused, hcalls]
    exact h.fed

/-- Nor does a call that loses nothing. -/
theorem call (h : Books o shelf fed aqm expired) {c : HandlerCall} (hrefused : c.refused = [])
    (hdropped : c.dropped = []) : Books (o.call c) shelf fed aqm expired where
  dropped := by
    rw [o.dropped_call, hdropped, List.append_nil]
    exact h.dropped
  measured := h.measured
  dropLog := h.dropLog
  fed := by
    rw [o.refused_call, hrefused, List.append_nil]
    exact h.fed

theorem refuse (h : Books o shelf fed aqm expired) (p : IpPkt) :
    Books (o.call (.dropIngressPkt p)) shelf (fed + p.size) aqm expired where
  dropped := by
    rw [o.dropped_call, HandlerCall.dropped, List.append_nil]
    exact h.dropped
  measured := h.measured
  dropLog := h.dropLog
  fed := by
    rw [h.fed, o.refused_call, HandlerCall.refused, weight_append, weight_singleton]
    ring

theorem expire (h : Books o shelf fed aqm expired) {b : HarqPkt} (hb : b.Measured) :
    Books (o.call (.drop b)) shelf (fed + truncToInt b.bits) aqm (expired ++ [b]) where
  dropped := by
    rw [o.dropped_call, HandlerCall.dropped, ← List.append_assoc]
    exact h.dropped.append_right [b]
  measured := by
    rw [← List.append_assoc, List.forall_mem_append, List.forall_mem_singleton]
    exact ⟨h.measured, hb⟩
  dropLog := h.dropLog
  fed := by
    rw [h.fed, o.refused_call, HandlerCall.refused, List.append_nil, weight_append,
      weight_singleton]
    ring

/-- A packet of the AQM reaches the handler, and not the statistic. -/
theorem takeDropped (h : Books o shelf fed aqm expired) {b : HarqPkt} {p : IpPkt}
    (hdropped : shelf.dropped = p :: shelf'.dropped) (hlog : shelf'.dropLog = shelf.dropLog)
    (hpkts : b.pkts = [p]) (hb : b.Measured) :
    Books (o.call (.drop b)) shelf' fed (aqm ++ [b]) expired where
  dropped := by
    rw [o.dropped_call, HandlerCall.dropped, List.append_assoc]
    refine (h.dropped.append_right [b]).trans ?_
    rw [List.append_assoc]
    exact List.perm_append_comm.append_left aqm
  measured := by
    intro x hx
    rw [List.append_assoc] at hx
    rcases List.mem_append.mp hx with hx | hx
    · exact h.measured x (List.mem_append_left _ hx)
    · rcases List.mem_append.mp hx with hx | hx
      · rw [List.mem_singleton.mp hx]
        exact hb
      · exact h.measured x (List.mem_append_right _ hx)
  dropLog := by
    rw [hlog, h.dropLog, hdropped, List.flatMap_append, List.flatMap_singleton, hpkts,
      List.append_assoc]
    rfl
  fed := by
    rw [h.fed, o.refused_call, HandlerCall.refused, List.append_nil]

omit [PacketHandler H Env In] in
/-- What the AQM drops joins the log and the queue alike. -/
theorem yields {G : AddSubgroup ℚ} {out : List IpPkt} (h : Books o shelf fed aqm expired)
    (hy : Shelf.Yields G shelf shelf' out) : Books o shelf' fed aqm expired := by
  obtain ⟨ds, hdropped, hlog, -, -⟩ := hy
  refine ⟨h.dropped, h.measured, ?_, h.fed⟩
  rw [hlog, hdropped, h.dropLog, List.append_assoc]

omit [PacketHandler H Env In] in
/-- **What the statistic misses**, when no packet of the AQM is still on its way: the bits
the AQM dropped, and the fractions of the expired blocks. -/
theorem missing (h : Books o shelf fed aqm expired) (hnone : shelf.dropped = []) :
    o.lostBits = fed + weight IpPkt.size shelf.dropLog
      + weight (fun b => Int.fract b.bits) expired := by
  have hbits (l : List HarqPkt) (hl : ∀ b ∈ l, b.Measured) :
      weight IpPkt.size (l.flatMap HarqPkt.pkts) = weight HarqPkt.bits l := by
    rw [weight_flatMap]
    refine congrArg List.sum (List.map_congr_left fun b hb => ?_)
    exact (hl b hb).bits.symm
  have hexpired : weight HarqPkt.bits expired
      = weight (fun b => (truncToInt b.bits : ℚ)) expired
        + weight (fun b => Int.fract b.bits) expired := by
    rw [weight, weight, weight, ← List.sum_map_add]
    refine congrArg List.sum (List.map_congr_left fun b hb => ?_)
    have hb := (h.measured b (List.mem_append_right _ hb)).bits_nonneg
    rw [truncToInt_of_nonneg hb]
    exact (Int.floor_add_fract b.bits).symm
  rw [Observed.lostBits, hbits o.dropped fun b hb => h.measured b (h.dropped.subset hb),
    weight_perm h.dropped, weight_append, hexpired, h.fed, h.dropLog, hnone, List.append_nil,
    hbits aqm fun b hb => h.measured b (List.mem_append_left _ hb)]
  ring

omit [PacketHandler H Env In] in
/-- So the statistic has all that was lost exactly when there is nothing of either. -/
theorem accounts_iff (h : Books o shelf fed aqm expired) (hnone : shelf.dropped = [])
    (hlog : ∀ p ∈ shelf.dropLog, 0 ≤ p.size) :
    fed = o.lostBits ↔
      (∀ p ∈ shelf.dropLog, p.size = 0) ∧ ∀ b ∈ o.dropped, ∃ n : ℤ, b.bits = n := by
  have hfract : ∀ b ∈ expired, 0 ≤ Int.fract b.bits := fun b _ => Int.fract_nonneg b.bits
  have hlost := h.missing hnone
  have hlog0 := weight_nonneg hlog
  have hfract0 := weight_nonneg hfract
  have hnothing : fed = o.lostBits ↔ weight IpPkt.size shelf.dropLog = 0 ∧
      weight (fun b => Int.fract b.bits) expired = 0 := by
    constructor
    · intro heq
      constructor <;> linarith
    · intro ⟨hlog, hfract⟩
      rw [hlost, hlog, hfract, add_zero, add_zero]
  rw [hnothing, weight_eq_zero_iff hlog, weight_eq_zero_iff hfract]
  refine and_congr_right fun hzero => ⟨fun hwhole b hb => ?_, fun hwhole b hb => ?_⟩
  · rcases List.mem_append.mp (h.dropped.subset hb) with haqm | hexpired
    · -- a block of the AQM is a packet of its log, which has no bits
      refine ⟨0, ?_⟩
      rw [(h.measured b (List.mem_append_left _ haqm)).bits, Int.cast_zero]
      refine weight_eq_zero fun p hp => hzero p ?_
      rw [h.dropLog]
      exact List.mem_append_left _ (List.mem_flatMap.mpr ⟨b, haqm, hp⟩)
    · obtain ⟨n, hn⟩ := Int.fract_eq_zero_iff.mp (hwhole b hexpired)
      exact ⟨n, hn.symm⟩
  · obtain ⟨n, hn⟩ := hwhole b (h.dropped.symm.subset (List.mem_append_right _ hb))
    rw [hn]
    exact Int.fract_intCast n

end Books

/-- What the books rest on: the statistic is on, and no size is negative. -/
structure Ledger {H Env In : Type} [PacketHandler H Env In] (inHand : Option HarqPkt)
    (o : Observed H) (b : IpBuffer) (harq : List HarqPkt) : Prop where
  verbose : 0 < b.verbosity
  counter : 0 < b.eMean.totalCounter
  ingress : ∀ p ∈ (PacketHandler.base o.handler).ingressPkts, 0 ≤ p.size
  waiting : ∀ p ∈ b.shelf.waiting, 0 ≤ p.size
  dropLog : ∀ p ∈ b.shelf.dropLog, 0 ≤ p.size
  held : ∀ x ∈ inHand, x.Measured
  harq : ∀ x ∈ harq, x.Measured
  books : ∃ aqm expired, Books o b.shelf b.eMean.fed aqm expired

namespace Ledger

variable {H Env In : Type} [PacketHandler H Env In] {inHand : Option HarqPkt} {o : Observed H}
  {b b' : IpBuffer} {harq harq' : List HarqPkt}

/-- The block in hand is dropped. -/
theorem drop {x : HarqPkt} (h : Ledger (some x) o b harq) :
    Ledger none ((Observed.mk (PacketHandler.recordError o.handler x.bits) o.calls).call (.drop x))
      (b.dropPkt x.bits) harq := by
  obtain ⟨hfed, hcounter⟩ := MeanHandler.fed_addIf h.verbose b.eMean (truncToInt x.bits)
  obtain ⟨aqm, expired, hbooks⟩ := h.books
  have hnoted : Books (Observed.mk (PacketHandler.recordError o.handler x.bits) o.calls) b.shelf
      b.eMean.fed aqm expired := hbooks.same rfl rfl rfl
  refine ⟨h.verbose, ?_, ?_, h.waiting, h.dropLog, fun y hy => ?_, h.harq, aqm, expired ++ [x], ?_⟩
  · exact hcounter ▸ h.counter
  · show ∀ p ∈ (PacketHandler.base (PacketHandler.drop _ x)).ingressPkts, 0 ≤ p.size
    rw [(PacketHandler.intake_drop _ x).ingress, PacketHandler.base_recordError]
    exact h.ingress
  · cases hy
  · show Books _ b.shelf (b.eMean.addIf b.verbosity (truncToInt x.bits)).fed aqm _
    rw [hfed]
    exact hnoted.expire (h.held x rfl)

/-- A packet the AQM dropped goes to the handler. -/
theorem takeDropped (h : Ledger inHand o b harq) {x : HarqPkt}
    (hpop : b.popAqmDroppedPkt {} = some (b', x)) :
    Ledger inHand
      ((Observed.mk (PacketHandler.recordError o.handler x.bits) o.calls).call (.drop x))
      b' harq := by
  have hframe := IpBuffer.popAqmDroppedPkt_frame hpop
  obtain ⟨p, hdropped, hwait, hlog, hbits, hpkts⟩ := IpBuffer.popAqmDroppedPkt_spec hpop
  obtain ⟨aqm, expired, hbooks⟩ := h.books
  have hnoted : Books (Observed.mk (PacketHandler.recordError o.handler x.bits) o.calls) b.shelf
      b.eMean.fed aqm expired := hbooks.same rfl rfl rfl
  have hp : 0 ≤ p.size := by
    refine h.dropLog p ?_
    rw [hbooks.dropLog, hdropped]
    exact List.mem_append_right _ (List.mem_cons_self ..)
  have hx : x.Measured := by
    refine ⟨?_, ?_⟩
    · rw [hbits, hpkts, weight_singleton]
    · rw [hpkts, List.forall_mem_singleton]
      exact hp
  refine ⟨?_, ?_, ?_, ?_, ?_, h.held, h.harq, aqm ++ [x], expired, ?_⟩
  · exact hframe.verbosity ▸ h.verbose
  · exact hframe.eMean ▸ h.counter
  · show ∀ p ∈ (PacketHandler.base (PacketHandler.drop _ x)).ingressPkts, 0 ≤ p.size
    rw [(PacketHandler.intake_drop _ x).ingress, PacketHandler.base_recordError]
    exact h.ingress
  · rw [hwait]
    exact h.waiting
  · rw [hlog]
    exact h.dropLog
  · rw [hframe.eMean]
    exact hnoted.takeDropped hdropped hlog hpkts hx

/-- The buffer hands out a block. -/
theorem take {G : AddSubgroup ℚ} {x : HarqPkt} (h : Ledger none o b harq)
    (hframe : IpBuffer.SameFrame b b') (hy : Shelf.Yields G b.shelf b'.shelf x.pkts)
    (hbits : x.bits = weight IpPkt.size x.pkts) : Ledger (some x) o b' harq := by
  obtain ⟨aqm, expired, hbooks⟩ := h.books
  obtain ⟨hwait, hnew⟩ := hy.forall_mem (inherited_nonneg G) h.waiting
  refine ⟨hframe.verbosity ▸ h.verbose, hframe.eMean ▸ h.counter, h.ingress, hwait, ?_, ?_, h.harq,
    aqm, expired, ?_⟩
  · exact hy.forall_dropLog (inherited_nonneg G) h.waiting h.dropLog
  · intro y hx
    obtain rfl := Option.mem_some.mp hx
    exact ⟨hbits, hnew⟩
  · rw [hframe.eMean]
    exact hbooks.yields hy

/-- The block in hand is forgotten. -/
theorem putDown (h : Ledger inHand o b harq) : Ledger none o b harq := by
  refine ⟨h.verbose, h.counter, h.ingress, h.waiting, h.dropLog, fun x hx => ?_, h.harq, h.books⟩
  cases hx

/-- The block in hand goes to the HARQ buffer. -/
theorem store {x x' : HarqPkt} (h : Ledger (some x) o b harq) (hbits : x'.bits = x.bits)
    (hpkts : x'.pkts = x.pkts) : Ledger none o b (harq ++ [x']) := by
  have hx := h.held x rfl
  have hx' : x'.Measured := by
    refine ⟨?_, ?_⟩
    · rw [hbits, hpkts]
      exact hx.bits
    · rw [hpkts]
      exact hx.nonneg
  refine ⟨h.verbose, h.counter, h.ingress, h.waiting, h.dropLog, fun y hy => ?_, ?_, h.books⟩
  · cases hy
  · rw [List.forall_mem_append, List.forall_mem_singleton]
    exact ⟨h.harq, hx'⟩

/-- A block leaves the HARQ buffer. -/
theorem unstore {x : HarqPkt} (h : Ledger none o b harq) (hperm : harq.Perm (x :: harq')) :
    Ledger (some x) o b harq' := by
  refine ⟨h.verbose, h.counter, h.ingress, h.waiting, h.dropLog, ?_, ?_, h.books⟩
  · intro y hy
    obtain rfl := Option.mem_some.mp hy
    exact h.harq _ (hperm.mem_iff.mpr (List.mem_cons_self ..))
  · exact fun y hy => h.harq y (hperm.mem_iff.mpr (List.mem_cons_of_mem _ hy))

/-- A call that loses nothing. -/
theorem call (h : Ledger inHand o b harq) {c : HandlerCall} (hrefused : c.refused = [])
    (hdropped : c.dropped = [])
    (hin : SameIntake (PacketHandler.base o.handler) (PacketHandler.base (c.run o.handler))) :
    Ledger none (o.call c) b harq := by
  obtain ⟨aqm, expired, hbooks⟩ := h.books
  refine ⟨h.verbose, h.counter, ?_, h.waiting, h.dropLog, fun y hy => ?_, h.harq, aqm, expired,
    hbooks.call hrefused hdropped⟩
  · show ∀ p ∈ (PacketHandler.base (c.run o.handler)).ingressPkts, 0 ≤ p.size
    rw [hin.ingress]
    exact h.ingress
  · cases hy

end Ledger

/-! ### What the AQM drops reaches the handler at once -/

namespace PdcpLayer

section Drained

variable {H Env In : Type} [PacketHandler H Env In]

/-- No packet the AQM dropped is still on its way to the handler. -/
def Drained (s : PdcpLayer H) : Prop := s.ipBuffer.shelf.dropped = []

/-- Each pass of the drain takes a packet, so as many passes as there are packets empty
the queue. -/
private theorem drainAqmLoop_drained (n : ℕ) : ∀ s : PdcpLayer H,
    s.ipBuffer.l4sCfg.enabled = true → s.ipBuffer.l4sQueue.droppedQueue.length ≤ n →
      (s.drainAqmLoop n).Drained := by
  induction n with
  | zero =>
      intro s _ hlen
      exact List.length_eq_zero_iff.mp (Nat.le_zero.mp hlen)
  | succ n ih =>
      intro s henabled hlen
      simp only [drainAqmLoop]
      split
      · rename_i hnone
        unfold IpBuffer.popAqmDroppedPkt at hnone
        rw [if_pos henabled] at hnone
        show s.ipBuffer.l4sQueue.droppedQueue = []
        cases hqueue : s.ipBuffer.l4sQueue.droppedQueue with
        | nil => rfl
        | cons p rest => simp [DualPi2Queue.popDroppedPkt, hqueue] at hnone
      · rename_i buffer dropped hpop
        obtain ⟨p, hqueue, -⟩ := IpBuffer.popAqmDroppedPkt_spec hpop
        have hlen' : (p :: buffer.shelf.dropped).length ≤ n + 1 := by
          rw [← hqueue]
          exact hlen
        refine ih _ ?_ (Nat.le_of_succ_le_succ hlen')
        show buffer.l4sCfg.enabled = true
        rw [(IpBuffer.popAqmDroppedPkt_frame hpop).l4sCfg, henabled]

/-- `fetch` hands on all that the AQM drops while the block is filled.  The deque has no
AQM. -/
private theorem fetch_drained {s : PdcpLayer H} (h : s.Drained) (bits : ℚ) (mcs distance : ℤ) :
    (s.fetch bits mcs distance).2.Drained := by
  have hframe := IpBuffer.getPkts_frame s.ipBuffer bits
    (s.newBlock s.ipBuffer.getOldestTimestamp mcs distance)
  by_cases henabled : s.ipBuffer.l4sCfg.enabled = true
  · exact drainAqmLoop_drained _ (s.fill bits mcs distance).2 (hframe.l4sCfg ▸ henabled) le_rfl
  · have hqueue : (s.fill bits mcs distance).2.ipBuffer.l4sQueue.droppedQueue = [] := by
      rw [show (s.fill bits mcs distance).2.ipBuffer.l4sQueue = _ from
        hframe.dual (Bool.eq_false_iff.mpr henabled)]
      exact h
    show ((s.fill bits mcs distance).2.drainAqmLoop
      (s.fill bits mcs distance).2.ipBuffer.l4sQueue.droppedQueue.length).Drained
    rw [hqueue]
    exact hqueue

private theorem drained_drops : DropRules fun _ (s : PdcpLayer H) => s.Drained where
  drain h hpop := by
    obtain ⟨p, hqueue, -⟩ := IpBuffer.popAqmDroppedPkt_spec hpop
    rw [Drained, hqueue] at h
    cases h
  drop h := h

/-- Between two events the queue of dropped packets is empty. -/
theorem drained_rules : LayerRules fun _ (s : PdcpLayer H) => s.Drained where
  toDropRules := drained_drops
  offer {s p h'} h _ := by
    show (({ s with packetH := h' } : PdcpLayer H).offer p).ipBuffer.shelf.dropped = []
    have hdropped : (s.ipBuffer.addPkt p).2.shelf.dropped = s.ipBuffer.shelf.dropped := by
      rcases s.ipBuffer.addPkt_shelf p with ⟨-, -, hdropped, -⟩ | ⟨-, hsame⟩
      · exact hdropped
      · rw [hsame]
    rcases offer_cases { s with packetH := h' } p with ⟨-, hoffer⟩ | ⟨-, hoffer⟩
    · rw [hoffer]
      exact hdropped.trans h
    · rw [hoffer]
      exact hdropped.trans h
  count h := h
  expire h _ hpop := (IpBuffer.popOldestPkt_dropped hpop).trans h
  unstore h _ := h
  handle grant :=
    { toDropRules := drained_drops
      fetch := fun mcs distance h _ _ => fetch_drained h grant mcs distance
      forget := fun h _ => h
      expired := fun h _ _ => h
      ready := fun h _ => h }
  ends h hends := by
    cases hends with
    | send | store | requeue => exact h
  advance {s} t i h := by
    show (s.ipBuffer.step t).shelf.dropped = []
    rw [IpBuffer.shelf_step]
    exact h
  receive _ h := h
  release h := h

end Drained

end PdcpLayer

/-! ### Runs -/

namespace PdcpLayer

variable {H Env In : Type} [PacketHandler H Env In]

/-- A packet goes from the ingress queue to the buffer, or is refused. -/
private theorem ledger_offer {s : PdcpLayer (Observed H)} {p : IpPkt} {o : Observed H}
    (h : Ledger none s.packetH s.ipBuffer s.harqBuffer.harqBuffer)
    (hpop : PacketHandler.popIngressPkt s.packetH = some (p, o)) :
    Ledger none ({ s with packetH := o }.offer p).packetH ({ s with packetH := o }.offer p).ipBuffer
      ({ s with packetH := o }.offer p).harqBuffer.harqBuffer := by
  obtain ⟨hplain, hcalls⟩ := Observed.popIngressPkt_some hpop
  obtain ⟨hin, -⟩ := popIngressPkt_intake hplain
  obtain ⟨aqm, expired, hbooks⟩ := h.books
  have hp : 0 ≤ p.size := h.ingress p (hin ▸ List.mem_cons_self ..)
  have hrest : ∀ q ∈ (PacketHandler.base o.handler).ingressPkts, 0 ≤ q.size :=
    fun q hq => h.ingress q (hin ▸ List.mem_cons_of_mem _ hq)
  have hpopped : Books o s.ipBuffer.shelf s.ipBuffer.eMean.fed aqm expired :=
    hbooks.same hcalls rfl rfl
  rcases offer_cases { s with packetH := o } p with ⟨hok, hoffer⟩ | ⟨hno, hoffer⟩ <;> rw [hoffer]
  · have hframe := IpBuffer.addPkt_frame hok
    rcases s.ipBuffer.addPkt_shelf p with ⟨-, hwait, hdropped, hlog⟩ | ⟨hno, -⟩
    · refine ⟨hframe.verbosity ▸ h.verbose, hframe.eMean ▸ h.counter, hrest, fun q hq => ?_, ?_,
        h.held, h.harq, aqm, expired, ?_⟩
      · rcases List.mem_cons.mp (hwait.mem_iff.mp hq) with rfl | hq
        · exact hp
        · exact h.waiting q hq
      · rw [hlog]
        exact h.dropLog
      · rw [hframe.eMean]
        exact hpopped.same rfl hdropped hlog
    · rw [hok] at hno
      cases hno
  · obtain ⟨hfed, hcounter⟩ := MeanHandler.fed_addIf h.verbose s.ipBuffer.eMean p.size
    rw [(s.ipBuffer.addPkt_refused p).2 hno]
    refine ⟨h.verbose, hcounter ▸ h.counter, ?_, h.waiting, h.dropLog, h.held, h.harq, aqm,
      expired, ?_⟩
    · show ∀ q ∈ (PacketHandler.base (PacketHandler.dropIngressPkt o.handler p)).ingressPkts, _
      rw [(PacketHandler.intake_dropIngressPkt o.handler p).ingress]
      exact hrest
    · rw [hfed]
      exact hpopped.refuse p

/-- The buffer fills a block. -/
private theorem ledger_fill {s : PdcpLayer (Observed H)}
    (h : Ledger none s.packetH s.ipBuffer s.harqBuffer.harqBuffer) (bits : ℚ)
    (mcs distance : ℤ) :
    Ledger (some (s.fill bits mcs distance).1) (s.fill bits mcs distance).2.packetH
      (s.fill bits mcs distance).2.ipBuffer
      (s.fill bits mcs distance).2.harqBuffer.harqBuffer := by
  obtain ⟨new, hy, hblock⟩ := IpBuffer.getPkts_filled (G := ⊤) (fun _ => trivial) s.ipBuffer bits
    (s.newBlock s.ipBuffer.getOldestTimestamp mcs distance) (fun _ _ => trivial)
  have hpkts : (s.fill bits mcs distance).1.pkts = new := congrArg HarqPkt.pkts hblock
  have hbits : (s.fill bits mcs distance).1.bits = weight IpPkt.size new :=
    congrArg HarqPkt.bits hblock
  refine h.take (G := ⊤) (IpBuffer.getPkts_frame ..) ?_ ?_
  · rw [hpkts]
    exact hy
  · rw [hbits, hpkts]

/-- The oldest packet has expired. -/
private theorem ledger_expire {s : PdcpLayer (Observed H)} {buffer : IpBuffer} {b out : HarqPkt}
    (h : Ledger none s.packetH s.ipBuffer s.harqBuffer.harqBuffer)
    (hpop : s.ipBuffer.popOldestPkt out = some (buffer, b)) :
    Ledger (some b) s.packetH buffer s.harqBuffer.harqBuffer := by
  obtain ⟨p, hy, rfl⟩ := IpBuffer.popOldestPkt_spec ⊤ hpop
  refine h.take (IpBuffer.popOldestPkt_frame hpop) hy ?_
  rw [weight_singleton]

/-- The clock moves on, and packets come in. -/
private theorem ledger_advance {s : PdcpLayer (Observed H)}
    (h : Ledger none s.packetH s.ipBuffer s.harqBuffer.harqBuffer) (t : ℚ) (i : In) :
    Ledger none (s.advance t i).packetH (s.advance t i).ipBuffer
      (s.advance t i).harqBuffer.harqBuffer := by
  obtain ⟨new, hin, -, hfresh⟩ :=
    PacketHandler.ingest_fresh (PacketHandler.step s.packetH.handler t) t i
  obtain ⟨hfed, hcounter⟩ := MeanHandler.fed_stepIf h.counter s.ipBuffer.verbosity
  obtain ⟨aqm, expired, hbooks⟩ := h.books
  have hshelf := s.ipBuffer.shelf_step t
  refine ⟨h.verbose, hcounter, fun p hp => ?_, fun p hp => h.waiting p (hshelf ▸ hp),
    fun p hp => h.dropLog p (hshelf ▸ hp), h.held, h.harq, aqm, expired, ?_⟩
  · rw [show (PacketHandler.base (s.advance t i).packetH.handler).ingressPkts = _ from hin,
      PacketHandler.base_step] at hp
    rcases List.mem_append.mp hp with hp | hp
    · exact h.ingress p hp
    · exact (hfresh p hp).nonneg
  · show Books _ (s.ipBuffer.step t).shelf (s.ipBuffer.eMean.stepIf s.ipBuffer.verbosity).fed _ _
    rw [hfed, hshelf]
    exact hbooks.same rfl rfl rfl

/-- The block in hand is sent, or stored for another transmission. -/
private theorem ledger_ends {s s' : PdcpLayer (Observed H)} {b : HarqPkt} {sent : ℚ}
    (h : Ledger (some b) s.packetH s.ipBuffer s.harqBuffer.harqBuffer) (hends : Ends s b sent s') :
    Ledger none s'.packetH s'.ipBuffer s'.harqBuffer.harqBuffer := by
  cases hends with
  | send => exact h.call rfl rfl (PacketHandler.intake_push _ b)
  | store mcs sinr hrtx =>
      obtain ⟨d, hd⟩ := HarqHandler.addPkts_spec s.harqBuffer b
      simp only [hd]
      exact h.store rfl rfl
  | requeue distance sinr hrtx =>
      obtain ⟨d, hd⟩ := HarqHandler.queue_spec s.harqBuffer b distance
      simp only [hd]
      exact h.store rfl rfl

/-- What both loops do keeps the books. -/
private theorem ledger_drops : DropRules fun inHand (s : PdcpLayer (Observed H)) =>
    Ledger inHand s.packetH s.ipBuffer s.harqBuffer.harqBuffer where
  drain h hpop := h.takeDropped hpop
  drop h := h.drop

/-- **Everything the layer does keeps the books.** -/
theorem ledger_rules : LayerRules fun inHand (s : PdcpLayer (Observed H)) =>
    Ledger inHand s.packetH s.ipBuffer s.harqBuffer.harqBuffer where
  toDropRules := ledger_drops
  offer h hpop := ledger_offer h hpop
  count h := h
  expire {s _ _} h _ hpop := ledger_expire (s := s) h hpop
  unstore h hpop := h.unstore (HarqHandler.takeOlder_perm (HarqHandler.popPktOlderThan_spec hpop))
  handle grant :=
    { toDropRules := ledger_drops
      fetch := fun mcs distance h _ _ => ledger_drops.fetch (ledger_fill h grant mcs distance)
      forget := fun h _ => h.putDown
      expired := fun h _ _ => h.drop
      ready := fun h hget => h.unstore (by rw [HarqHandler.getPkt_spec hget]) }
  ends h hends := ledger_ends h hends
  advance t i h := ledger_advance h t i
  receive {s} e h := by
    obtain ⟨aqm, expired, hbooks⟩ := h.books
    refine ⟨h.verbose, h.counter, fun p hp => ?_, h.waiting, h.dropLog, h.held, h.harq, aqm,
      expired, hbooks.same rfl rfl rfl⟩
    exact h.ingress p ((PacketHandler.intake_receive s.packetH.handler e).ingress ▸ hp)
  release h := h.call rfl rfl (PacketHandler.intake_release _)

/-- `get_error` starts the mean anew, and not the statistic. -/
private theorem ledger_getError {s : PdcpLayer (Observed H)}
    (h : Ledger none s.packetH s.ipBuffer s.harqBuffer.harqBuffer) (isPartial : Bool) :
    Ledger none (s.getError isPartial).2.packetH (s.getError isPartial).2.ipBuffer
      (s.getError isPartial).2.harqBuffer.harqBuffer := by
  unfold getError IpBuffer.getError
  rw [if_pos h.verbose]
  cases isPartial with
  | true =>
      exact ⟨h.verbose, h.counter, h.ingress, h.waiting, h.dropLog, h.held, h.harq, h.books⟩
  | false => exact h

private theorem drained_getError {s : PdcpLayer H} (h : s.Drained) (isPartial : Bool) :
    (s.getError isPartial).2.Drained := by
  unfold getError IpBuffer.getError
  split
  · cases isPartial with
    | true => exact h
    | false => exact h
  · exact h

/-- What every event keeps, and `get_error` keeps, every operation keeps. -/
private theorem operateAll_rule {K : Option HarqPkt → PdcpLayer H → Prop} (hK : LayerRules K)
    (herror : ∀ {s}, K none s → ∀ isPartial, K none (s.getError isPartial).2) {fuel : ℕ}
    {ops : List (Operation Env In)} {s s' : PdcpLayer H} (h : K none s)
    (hrun : s.operateAll fuel ops = some s') : K none s' := by
  refine Runs.runAll_inv' (I := K none) (fun s op s' hs hop => ?_) h hrun
  cases op with
  | event e => exact apply_rule hK hs hop
  | getError isPartial =>
      obtain rfl := Option.some.inj hop
      exact herror hs isPartial

/-- A new layer has lost nothing. -/
private theorem ledger_make (cfg : PacketHandlerConfig) {verbosity : ℤ} (hv : 0 < verbosity)
    (seeds : Seeds) {handler : H} (hin : (PacketHandler.base handler).ingressPkts = []) :
    Ledger none (Observed.mk handler []) (make cfg verbosity seeds handler).ipBuffer [] := by
  have hnone : ∀ p ∈ ([] : List IpPkt), 0 ≤ p.size := List.forall_mem_nil _
  refine ⟨hv, Nat.one_pos, ?_, hnone, hnone, ?_, List.forall_mem_nil _, [], [], ?_⟩
  · show ∀ p ∈ (PacketHandler.base handler).ingressPkts, 0 ≤ p.size
    rw [hin]
    exact hnone
  · intro x hx
    cases hx
  · refine ⟨.refl _, List.forall_mem_nil _, rfl, ?_⟩
    show (0 : ℚ) * (1 - 1) + 0 = 0 + 0
    ring

/-- **When the reported errors account for all that is lost.**  In every run, with the
statistic on, the blocks dropped are those of the AQM, which hold its packets once each, and
the expired ones.  What was fed into the statistic is the bits refused and dropped exactly
when the AQM has dropped no bits and every block dropped had a whole number of them. -/
theorem reported_errors_iff (cfg : PacketHandlerConfig) (verbosity : ℤ) (hv : 0 < verbosity)
    (seeds : Seeds) (handler : H) (hin : (PacketHandler.base handler).ingressPkts = [])
    (budgetS : ℚ) (fuel : ℕ) (ops : List (Operation Env In)) (s : PdcpLayer (Observed H))
    (hrun : ((make cfg verbosity seeds handler).setPktDelayBudget budgetS).observe.operateAll
      fuel ops = some s) :
    (∃ aqm expired : List HarqPkt, s.packetH.dropped.Perm (aqm ++ expired) ∧
      s.ipBuffer.l4sQueue.dropLog = aqm.flatMap HarqPkt.pkts) ∧
    (s.ipBuffer.eMean.fed = s.packetH.lostBits ↔
      (∀ p ∈ s.ipBuffer.l4sQueue.dropLog, p.size = 0) ∧
        ∀ b ∈ s.packetH.dropped, ∃ n : ℤ, b.bits = n) := by
  have hledger : Ledger none s.packetH s.ipBuffer s.harqBuffer.harqBuffer :=
    operateAll_rule ledger_rules ledger_getError (ledger_make cfg hv seeds hin) hrun
  have hstart : ((make cfg verbosity seeds handler).setPktDelayBudget budgetS).observe.Drained :=
    rfl
  have hdrained : s.Drained :=
    operateAll_rule (K := fun _ s => s.Drained) drained_rules drained_getError hstart hrun
  obtain ⟨aqm, expired, hbooks⟩ := hledger.books
  refine ⟨⟨aqm, expired, hbooks.dropped, ?_⟩, hbooks.accounts_iff hdrained hledger.dropLog⟩
  have hlog := hbooks.dropLog
  rwa [hdrained, List.append_nil] at hlog

/-- A packet of 1000 bytes waits for 0.2 s, and a grant reaches it.  Then it expires. -/
def lateGrant : List (Operation NfqPacketMetadata Draws) :=
  [.event (.env ⟨1000, 1, .notEct, []⟩), .event (.step (1 / 10) fun _ => 1 / 10),
    .event (.step (3 / 10) fun _ => 3 / 10), .event (.handlePkt 500 5 0 0), .getError true,
    .event (.step 1 fun _ => 1)]

/-- The AQM drops it, and no error is reported. -/
theorem reported_errors_miss_aqm : ∃ s : PdcpLayer (Observed CapturedPacketHandler),
    (captured { l4sC := { enabled := true } } 1 {} (35 / 100)).observe.operateAll 5 lateGrant
        = some s ∧
      s.ipBuffer.eMean.fed = 0 ∧ s.packetH.lostBits = 8000 := by
  refine Runs.exists_of_view (fun s => decide (s.ipBuffer.eMean.fed = 0 ∧
      s.packetH.lostBits = 8000)) (x := true) (by decide +kernel) fun s hs hview =>
    of_decide_eq_true hview

/-- Without the AQM 500 bits are sent, and the other 7500 expire. -/
theorem reported_errors_iff_plain : ∃ s : PdcpLayer (Observed CapturedPacketHandler),
    (captured {} 1 {} (35 / 100)).observe.operateAll 5 lateGrant = some s ∧
      s.packetH.lostBits = 7500 ∧ s.ipBuffer.eMean.fed = s.packetH.lostBits := by
  refine Runs.exists_of_view (fun s => decide (s.packetH.lostBits = 7500 ∧
      s.ipBuffer.l4sQueue.dropLog = [] ∧ s.packetH.dropped.map HarqPkt.bits = [7500]))
    (x := true) (by decide +kernel) fun s hs hview => ?_
  obtain ⟨hlost, hlog, hdropped⟩ := of_decide_eq_true hview
  have hiff := (reported_errors_iff {} 1 Int.one_pos {} _ rfl (35 / 100) 5 lateGrant s hs).2
  refine ⟨hlost, hiff.mpr ⟨?_, fun b hb => ⟨7500, ?_⟩⟩⟩
  · rw [hlog]
    exact List.forall_mem_nil _
  · have hbits : b.bits ∈ s.packetH.dropped.map HarqPkt.bits := List.mem_map_of_mem hb
    rw [hdropped, List.mem_singleton] at hbits
    rw [hbits]
    rfl

end PdcpLayer

end NetworkEmulator
