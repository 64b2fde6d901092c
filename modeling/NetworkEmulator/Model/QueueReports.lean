/-
What the UEs report of their queues: `get_queue_status` of `src/pdcp_layer/pdcp_layer.cpp`, with
what the packet handlers fill in, and what `ue::emit_queue_monitoring` asks of a layer.

The three counters of final verdicts are those of an interval, which `packet_handler::step`
starts, and so is that of the generated packets.  A UE reports in its own step, after
`release`, and then it does not call its layers any more, so its report is of the state its
step leaves.  The grids of the next step call the layers before that interval is over.
`grantVerdicts` is a history variable: the verdicts that were given in these calls.  The
counters of netfilter come from outside.
-/
import NetworkEmulator.Model.Emulator

namespace NetworkEmulator

/-- `packet_capture_stats`. -/
structure PacketCaptureStats where
  queueNum : ℤ := -1
  totalRecv : UInt32 := 0
  totalRlsd : UInt32 := 0
  bytesRecv : UInt32 := 0
  recvFails : UInt32 := 0
  rlsdFails : UInt32 := 0
  deriving DecidableEq, Repr

/-- `pdcp_queue_status`. -/
structure PdcpQueueStatus where
  ipBufferSize : ℕ := 0
  ipOldestUid : ℤ := -1
  ipOldestAge : ℚ := -1
  harqSize : ℕ := 0
  harqOldestId : ℤ := -1
  harqOldestAge : ℚ := -1
  harqOldestNTx : ℤ := -1
  captureSize : ℕ := 0
  captureOldestUid : ℤ := -1
  captureOldestAge : ℚ := -1
  releaseSize : ℕ := 0
  releaseOldestUid : ℤ := -1
  releaseOldestAge : ℚ := -1
  finalAcceptPackets : ℕ := 0
  finalAcceptCePackets : ℕ := 0
  finalDropPackets : ℕ := 0
  nfqueueQueueNum : ℤ := -1
  nfqueueCeRewritePackets : ℕ := 0
  nfqueueDropPackets : ℕ := 0
  nfqueueTotalRecv : ℤ := 0
  nfqueueTotalRlsd : ℤ := 0
  nfqueueBytesRecv : ℤ := 0
  nfqueueRecvFails : ℤ := 0
  nfqueueRlsdFails : ℤ := 0
  pktDelayBudgetS : ℚ := -1
  l4sStats : DualPi2Stats := {}
  deriving DecidableEq, Repr

/-- How many packets got a verdict. -/
def PdcpQueueStatus.final (status : PdcpQueueStatus) : FinalPacketVerdict → ℕ
  | .accept => status.finalAcceptPackets
  | .acceptCe => status.finalAcceptCePackets
  | .drop => status.finalDropPackets

/-- An `int` of a `uint32_t`. -/
def intOfUInt32 (n : UInt32) : ℤ := n.toInt32.toInt

/-! ### Handlers -/

/-- `packet_handler::fill_queue_status`. -/
def PacketHandlerBase.fillQueueStatus (h : PacketHandlerBase) (status : PdcpQueueStatus)
    (currentT : ℚ) : PdcpQueueStatus :=
  let status := { status with
    releaseSize := h.pktList.length
    finalAcceptPackets := h.finalAcceptPacketsInterval
    finalAcceptCePackets := h.finalAcceptCePacketsInterval
    finalDropPackets := h.finalDropPacketsInterval }
  match h.pktList with
  | [] => status
  | b :: _ => { status with releaseOldestUid := b.id, releaseOldestAge := currentT - b.ipT }

namespace CapturedPacketHandler

/-- What `fill_queue_status` copies from the capture. -/
def fillCaptureStatus (c : PktCapture) (stats : PacketCaptureStats) (status : PdcpQueueStatus) :
    PdcpQueueStatus :=
  let status := { status with
    captureSize := c.capturedPackets.length
    nfqueueQueueNum := stats.queueNum
    nfqueueTotalRecv := intOfUInt32 stats.totalRecv
    nfqueueTotalRlsd := intOfUInt32 stats.totalRlsd
    nfqueueBytesRecv := intOfUInt32 stats.bytesRecv
    nfqueueRecvFails := intOfUInt32 stats.recvFails
    nfqueueRlsdFails := intOfUInt32 stats.rlsdFails }
  match c.capturedPackets with
  | [] => status
  | info :: _ =>
    { status with captureOldestUid := intOfUInt32 info.pktId, captureOldestAge := -1 }

/-- `fill_queue_status`, which overrides that of the base class. -/
def fillQueueStatus (h : CapturedPacketHandler) (stats : PacketCaptureStats)
    (status : PdcpQueueStatus) (currentT : ℚ) : PdcpQueueStatus :=
  let status := h.toPacketHandlerBase.fillQueueStatus status currentT
  let status := fillCaptureStatus h.pktCptr stats status
  let status := { status with
    releaseSize := h.outPkts.length
    nfqueueCeRewritePackets := h.ceRewritePackets
    nfqueueDropPackets := h.dropPackets }
  match h.outPkts with
  | [] => status
  | p :: _ =>
    { status with releaseOldestUid := intOfUInt32 p.uid, releaseOldestAge := currentT - p.ipT }

end CapturedPacketHandler

namespace Emulation

/-- What `make_packet_handler` returns. -/
abbrev AnyHandler : Type := SimulatedPacketHandler ⊕ CapturedPacketHandler

/-- `fill_queue_status` of either. -/
def AnyHandler.fillQueueStatus (h : AnyHandler) (stats : PacketCaptureStats)
    (status : PdcpQueueStatus) (currentT : ℚ) : PdcpQueueStatus :=
  match h with
  | .inl h => h.toPacketHandlerBase.fillQueueStatus status currentT
  | .inr h => h.fillQueueStatus stats status currentT

end Emulation

/-! ### Layers -/

/-- `get_generated_packets`. -/
def IpBuffer.getGeneratedPackets (b : IpBuffer) (isPartial : Bool) : ℕ :=
  if isPartial then b.generatedPktsInterval else b.generatedPktsTotal

/-- `get_l4s_stats`. -/
def IpBuffer.getL4sStats (b : IpBuffer) : DualPi2Stats :=
  if b.l4sCfg.enabled then b.l4sQueue.getStats else {}

namespace PdcpLayer

variable {H : Type}

/-- What `get_queue_status` copies from the IP buffer. -/
def fillIpStatus (s : PdcpLayer H) (status : PdcpQueueStatus) : PdcpQueueStatus :=
  let status := { status with ipBufferSize := s.ipBuffer.backendSize }
  match s.ipBuffer.backendPeekOldest with
  | none => status
  | some p =>
    { status with ipOldestUid := intOfUInt32 p.uid, ipOldestAge := s.currentT - p.ipT }

/-- What it copies from the HARQ buffer. -/
def fillHarqStatus (s : PdcpLayer H) (status : PdcpQueueStatus) : PdcpQueueStatus :=
  let status := { status with harqSize := s.harqBuffer.harqBuffer.length }
  match s.harqBuffer.harqBuffer with
  | [] => status
  | b :: _ =>
    { status with
      harqOldestId := b.id, harqOldestAge := s.currentT - b.ipT, harqOldestNTx := b.nTx }

/-- `get_queue_status`. -/
def getQueueStatus (s : PdcpLayer Emulation.AnyHandler) (stats : PacketCaptureStats) :
    PdcpQueueStatus :=
  let status := s.fillHarqStatus (s.fillIpStatus {})
  s.packetH.fillQueueStatus stats
    { status with pktDelayBudgetS := s.pktDelayBudgetS, l4sStats := s.ipBuffer.getL4sStats }
    s.currentT

end PdcpLayer

namespace Emulation

/-! ### Reports -/

/-- What `publish_queue` asks of a layer. -/
structure QueueReport where
  usingL4s : Bool
  status : PdcpQueueStatus
  generatedPackets : ℕ
  deriving DecidableEq, Repr

/-- What a layer answers. -/
def queueReport (q : PdcpLayer AnyHandler) (stats : PacketCaptureStats) : QueueReport where
  usingL4s := q.ipBuffer.l4sCfg.enabled
  status := q.getQueueStatus stats
  generatedPackets := q.ipBuffer.getGeneratedPackets true

/-- A verdict, and of which packet. -/
abbrev Verdict : Type := UInt32 × FinalPacketVerdict

/-- The verdicts that a layer has given. -/
def verdictsOf (q : PdcpLayer AnyHandler) : List Verdict :=
  (PacketHandler.base q.packetH).verdictLog

/-- The simulator, and what its UEs have reported, step by step. -/
structure Reporting (K W V : Type) [Neg K] [One K] where
  emulator : Emulator K AnyHandler (Empty ⊕ NfqPacketMetadata) (ℚ × Draws) W V
  reports : List (List (Direction → QueueReport)) := []
  grantVerdicts : List (List (Direction → List Verdict)) := []

/-- What a step is given: its time, how the threads are scheduled, and what netfilter has counted
for each UE. -/
structure ReportingInput (W V : Type) where
  t : ℚ
  schedule : Schedule W V
  stats : ℕ → Direction → PacketCaptureStats

namespace Reporting

variable {K W V : Type} [Neg K] [One K]

/-- What all UEs report. -/
def queueReports (cell : Cell K AnyHandler (Empty ⊕ NfqPacketMetadata) (ℚ × Draws))
    (stats : ℕ → Direction → PacketCaptureStats) : List (Direction → QueueReport) :=
  cell.ueList.mapIdx fun i u tx => queueReport (u.pdcp tx) (stats i tx)

/-- The verdicts of `cell'` that `cell` has not given yet. -/
def newVerdicts (cell cell' : Cell K AnyHandler (Empty ⊕ NfqPacketMetadata) (ℚ × Draws)) :
    List (Direction → List Verdict) :=
  List.zipWith (fun u u' tx => (verdictsOf (u'.pdcp tx)).drop (verdictsOf (u.pdcp tx)).length)
    cell.ueList cell'.ueList

variable [LinearOrder K] [Zero K] [DecidableEq W] [DecidableEq V]

/-- A step of the simulator, with the reports that its UEs make in it. -/
def step (M : LogMath) (fuel : ℕ) (s : Reporting K W V) (x : ReportingInput W V) :
    Option (Reporting K W V) :=
  (s.emulator.macStep fuel x.schedule.mac).bind fun e =>
    (e.uesStep M fuel x.t x.schedule.ue).map fun e' =>
      { emulator := e'
        reports := s.reports ++ [queueReports e'.cell x.stats]
        grantVerdicts := s.grantVerdicts ++ [newVerdicts s.emulator.cell e.cell] }

/-- A run. -/
def exec (M : LogMath) (fuel : ℕ) (s : Reporting K W V) (xs : List (ReportingInput W V)) :
    Option (Reporting K W V) := Runs.runAll (step M fuel) s xs

end Reporting

end Emulation

end NetworkEmulator
