/-
The handler of virtual traffic, `src/pdcp_layer/simulated_packet_handler.cpp`.

It cuts what the traffic model generates into packets, and counts a packet's final
verdict when all of its bits are accounted for, fragment by fragment.  How many
bits the traffic model generates in a step is an input of `ingest`.
-/
import NetworkEmulator.Model.PacketHandler

namespace NetworkEmulator

/-- `pending_packet_result`. -/
structure PendingPacketResult where
  originalSize : ℚ := 0
  accountedBits : ℚ := 0
  dropped : Bool := false
  congestionSignal : Bool := false
  deriving DecidableEq, Repr

namespace PendingPacketResult

/-- Whether all bits of the packet are accounted for. -/
def complete (st : PendingPacketResult) : Bool :=
  decide (0 < st.originalSize) && decide (st.originalSize ≤ st.accountedBits + bitRoundMargin)

/-- The verdict the record amounts to. -/
def finalVerdict (st : PendingPacketResult) : FinalPacketVerdict :=
  if st.dropped then .drop else if st.congestionSignal then .acceptCe else .accept

end PendingPacketResult

/-- `simulated_packet_handler`.  `pktSize` is what `get_pkt_size` answers. -/
structure SimulatedPacketHandler extends PacketHandlerBase where
  pktSize : ℤ
  currentId : ℕ := 0
  pendingResults : UInt32 → Option PendingPacketResult := fun _ => none

namespace SimulatedPacketHandler

/-- The constructor. -/
def make (pktSize : ℤ) (pdcpC : PdcpConfig) (verbosity : ℤ) (seeds : Seeds) :
    SimulatedPacketHandler where
  toPacketHandlerBase := PacketHandlerBase.make pdcpC verbosity seeds
  pktSize := pktSize

/-- One packet of `ingest`. -/
def pushNew (h : SimulatedPacketHandler) (currentT size : ℚ) : SimulatedPacketHandler :=
  { h with
    toPacketHandlerBase := h.toPacketHandlerBase.pushIngressPkt
      (IpPkt.makeNext currentT size size (UInt32.ofNat h.currentId) h.bhD h.bhDVar)
    currentId := h.currentId + 1 }

/-- The `for` of `ingest`: `n` packets of full size. -/
def pushFull (currentT : ℚ) : ℕ → SimulatedPacketHandler → SimulatedPacketHandler
  | 0, h => h
  | n + 1, h => pushFull currentT n (h.pushNew currentT h.pktSize)

/-- `ingest`, given the bits the traffic model generated.  A `pktSize` of 0 is a
division by zero in the source. -/
def ingest (h : SimulatedPacketHandler) (currentT bits : ℚ) : SimulatedPacketHandler × ℚ :=
  if bits ≤ 0 then (h, 0)
  else
    let pkts : ℤ := ⌈bits / h.pktSize⌉
    let bitsLeft := bits - (pkts - 1) * h.pktSize
    let h := pushFull currentT (pkts - 1).toNat h
    (if 0 < bitsLeft then h.pushNew currentT bitsLeft else h, bits)

/-- The record `update_pending_packet` has after folding in `p`. -/
def pendingAfter (h : SimulatedPacketHandler) (p : IpPkt) (dropped : Bool) :
    PendingPacketResult :=
  let st := (h.pendingResults p.uid).getD {}
  { originalSize := if st.originalSize ≤ 0 then p.originalSize else st.originalSize
    accountedBits := st.accountedBits + p.size
    dropped := st.dropped || dropped
    congestionSignal := st.congestionSignal || p.ceMarked }

/-- `update_pending_packet`. -/
def updatePendingPacket (h : SimulatedPacketHandler) (p : IpPkt) (dropped : Bool) :
    SimulatedPacketHandler :=
  let st := h.pendingAfter p dropped
  let h := { h with toPacketHandlerBase := h.toPacketHandlerBase.settle p dropped }
  if st.complete then
    { h with
      toPacketHandlerBase := h.toPacketHandlerBase.verdict p st.finalVerdict
      pendingResults := Function.update h.pendingResults p.uid none }
  else { h with pendingResults := Function.update h.pendingResults p.uid (some st) }

/-- `update_pending_packet` on each packet of a list. -/
def updateAll (dropped : Bool) (h : SimulatedPacketHandler) (ps : List IpPkt) :
    SimulatedPacketHandler :=
  ps.foldl (fun h p => h.updatePendingPacket p dropped) h

/-- `drop_ingress_pkt`, inherited: the packet is discarded. -/
def dropIngressPkt (h : SimulatedPacketHandler) (p : IpPkt) : SimulatedPacketHandler :=
  { h with toPacketHandlerBase := h.toPacketHandlerBase.settle p true }

/-- `push`, inherited. -/
def push (h : SimulatedPacketHandler) (b : HarqPkt) : SimulatedPacketHandler :=
  { h with toPacketHandlerBase := h.toPacketHandlerBase.push b }

/-- `drop`. -/
def drop (h : SimulatedPacketHandler) (b : HarqPkt) : SimulatedPacketHandler :=
  h.updateAll true b.pkts

open PacketHandlerBase (ReleaseTotals)

/-- The `for` of `release`: the handler, the blocks that stay, and the sums. -/
def releaseLoop : List HarqPkt → SimulatedPacketHandler → ReleaseTotals →
    SimulatedPacketHandler × List HarqPkt × ReleaseTotals
  | [], h, r => (h, [], r)
  | b :: rest, h, r =>
    if b.tOut ≤ h.currentT then
      releaseLoop rest (h.updateAll false b.pkts)
        { count := r.count + 1
          bits := r.bits + b.bits
          latency := r.latency + (h.currentT - b.currentT)
          ipLatency := r.ipLatency + (h.currentT - b.ipT) }
    else
      let (h, kept, r) := releaseLoop rest h r
      (h, b :: kept, r)

/-- `release`. -/
def release (h : SimulatedPacketHandler) : SimulatedPacketHandler × ℚ :=
  let (h, kept, r) := releaseLoop h.pktList h {}
  ({ h with toPacketHandlerBase :=
      { h.toPacketHandlerBase with pktList := kept }.recordRelease r }, r.bits)

/-! ### The handler interface -/

/-- The loop of `ingest` runs only when packets have a size. -/
private theorem pktSize_pos (h : SimulatedPacketHandler) {bits : ℚ} (hb : 0 < bits)
    (hn : (⌈bits / h.pktSize⌉ - 1).toNat ≠ 0) : 0 < h.pktSize := by
  by_contra hneg
  have hneg : (h.pktSize : ℚ) ≤ 0 := by exact_mod_cast not_lt.mp hneg
  have hceil : ⌈bits / h.pktSize⌉ ≤ 0 :=
    Int.ceil_le.mpr (by simpa using div_nonpos_of_nonneg_of_nonpos hb.le hneg)
  omega

section Ingest

variable {P : SimulatedPacketHandler → Prop}
  (hpush : ∀ {g : SimulatedPacketHandler} (t size : ℚ), 0 < size → P g → P (g.pushNew t size))

include hpush

private theorem pushFull_rule (t : ℚ) (n : ℕ) : ∀ {h : SimulatedPacketHandler},
    (n ≠ 0 → 0 < h.pktSize) → P h → P (pushFull t n h) := by
  induction n with
  | zero => intro h _ hP; exact hP
  | succ n ih =>
      intro h hsize hP
      have hpos : 0 < h.pktSize := hsize (Nat.succ_ne_zero n)
      exact ih (h := h.pushNew t h.pktSize) (fun _ => hpos)
        (hpush t _ (by exact_mod_cast hpos) hP)

/-- **The rule of `ingest`**: it keeps what every packet of a positive size keeps. -/
theorem ingest_rule {h : SimulatedPacketHandler} (hP : P h) (t bits : ℚ) :
    P (h.ingest t bits).1 := by
  unfold ingest
  split
  · exact hP
  · rename_i hbits
    have hfull := pushFull_rule hpush t (⌈bits / h.pktSize⌉ - 1).toNat
      (h.pktSize_pos (not_le.mp hbits)) hP
    simp only
    split
    · exact hpush t _ ‹_› hfull
    · exact hfull

end Ingest

private theorem ingest_fresh (h : SimulatedPacketHandler) (t bits : ℚ) :
    ∃ new : List IpPkt,
      (h.ingest t bits).1.ingressPkts = h.ingressPkts ++ new ∧
      (h.ingest t bits).1.ingested = h.ingested ++ new ∧ ∀ p ∈ new, p.Fresh := by
  refine ingest_rule (P := fun g => ∃ new : List IpPkt, g.ingressPkts = h.ingressPkts ++ new ∧
    g.ingested = h.ingested ++ new ∧ ∀ p ∈ new, p.Fresh) ?_ ⟨[], by simp⟩ t bits
  intro g t size hsize hg
  exact pushIngressPkt_fresh
    ⟨hsize.le, rfl, by simp [IpPkt.makeNext, IpPkt.make], rfl, rfl⟩ hg

section Update

variable {P : SimulatedPacketHandler → Prop}
  (hupdate : ∀ {g : SimulatedPacketHandler} (p : IpPkt) (d : Bool),
    P g → P (g.updatePendingPacket p d))

include hupdate

/-- **The rule of `drop`**: it keeps what every fragment keeps. -/
theorem updateAll_rule (d : Bool) (ps : List IpPkt) :
    ∀ {h : SimulatedPacketHandler}, P h → P (h.updateAll d ps) := by
  induction ps with
  | nil => intro h hP; exact hP
  | cons p ps ih => intro h hP; exact ih (hupdate p d hP)

/-- So does the loop of `release`. -/
theorem releaseLoop_rule (bs : List HarqPkt) :
    ∀ {h : SimulatedPacketHandler} (r : ReleaseTotals), P h → P (releaseLoop bs h r).1 := by
  induction bs with
  | nil => intro h r hP; exact hP
  | cons b bs ih =>
      intro h r hP
      simp only [releaseLoop]
      split
      · exact ih _ (updateAll_rule hupdate false b.pkts hP)
      · exact ih r hP

end Update

theorem updatePendingPacket_intake (h : SimulatedPacketHandler) (p : IpPkt) (d : Bool) :
    SameIntake h.toPacketHandlerBase (h.updatePendingPacket p d).toPacketHandlerBase := by
  simp only [updatePendingPacket]
  split <;> exact ⟨rfl, rfl⟩

theorem updateAll_intake (d : Bool) (ps : List IpPkt) (h : SimulatedPacketHandler) :
    SameIntake h.toPacketHandlerBase (h.updateAll d ps).toPacketHandlerBase :=
  updateAll_rule (P := fun g => SameIntake h.toPacketHandlerBase g.toPacketHandlerBase)
    (fun p d hg => hg.trans (updatePendingPacket_intake _ p d)) d ps .rfl

private theorem releaseLoop_intake (bs : List HarqPkt) (h : SimulatedPacketHandler)
    (r : ReleaseTotals) :
    SameIntake h.toPacketHandlerBase (releaseLoop bs h r).1.toPacketHandlerBase :=
  releaseLoop_rule (P := fun g => SameIntake h.toPacketHandlerBase g.toPacketHandlerBase)
    (fun p d hg => hg.trans (updatePendingPacket_intake _ p d)) bs r .rfl

instance : PacketHandler SimulatedPacketHandler Empty ℚ where
  base h := h.toPacketHandlerBase
  setBase h b := { h with toPacketHandlerBase := b }
  ingest := ingest
  dropIngressPkt := dropIngressPkt
  push := push
  drop := drop
  release := release
  receive _ e := nomatch e
  base_setBase _ _ := rfl
  ingest_fresh := ingest_fresh
  intake_dropIngressPkt _ _ := ⟨rfl, rfl⟩
  intake_push _ _ := ⟨rfl, rfl⟩
  intake_drop h b := updateAll_intake true b.pkts h
  intake_release h :=
    have hl := releaseLoop_intake h.pktList h {}
    ⟨hl.ingress, hl.ingested⟩
  intake_receive _ e := nomatch e

end SimulatedPacketHandler

end NetworkEmulator
