/-
The PDCP layer, `src/pdcp_layer/pdcp_layer.cpp`.

It joins the packet handler, the IP buffer and the HARQ buffer: `step` takes new
packets in and throws expired ones out, `handlePkt` serves one grant, `release` lets
the handler deliver.  `Event` is one call from outside, `exec` a run of them; an
`Operation` may also ask for the errors, which resets their mean.

A grant between 0 and 1 bit makes the loop of `handlePkt` spin without taking
anything, so that loop has a bound and answers `none` when it is reached.

`expiredLog` is a history variable: the blocks `handlePkt` dropped as expired, each
with the oldest timestamp then allowed.  Nothing in the model reads it.
-/
import NetworkEmulator.Library.Runs
import NetworkEmulator.Model.IpBuffer
import NetworkEmulator.Model.HarqHandler
import NetworkEmulator.Model.SimulatedPacketHandler
import NetworkEmulator.Model.CapturedPacketHandler

namespace NetworkEmulator

/-- `packet_handler_config`, with `traffic_c` as the packet size it leads to. -/
structure PacketHandlerConfig where
  hasInitT : Bool := true
  pktSize : ℤ := 12000
  pdcpC : PdcpConfig := {}
  l4sC : DualPi2Config := {}
  logTraffic : Bool := false
  logQuality : Bool := false
  deriving DecidableEq, Repr

/-- `pdcp_layer`. -/
structure PdcpLayer (H : Type) where
  ipBuffer : IpBuffer
  harqBuffer : HarqHandler
  packetH : H
  currentId : ℤ := 0
  bhD : ℚ := 0
  bhDVar : ℚ := 0
  currentT : ℚ := 0
  pktDelayBudgetS : ℚ := 35 / 100
  expiredLog : List (ℚ × HarqPkt) := []

/-- A call of the PDCP layer from outside, or `env`, what the world does to the
packet handler between two calls. -/
inductive Event (Env In : Type) where
  | env (e : Env)
  | step (t : ℚ) (input : In)
  | handlePkt (bits : ℚ) (mcs : ℤ) (sinr distance : ℚ)
  | release

/-- An event, or a call of `get_error`. -/
inductive Operation (Env In : Type) where
  | event (e : Event Env In)
  | getError (isPartial : Bool)

namespace PdcpLayer

variable {H Env In : Type}

/-- The constructor, given the packet handler it makes. -/
def make (cfg : PacketHandlerConfig) (verbosity : ℤ) (seeds : Seeds) (packetH : H) :
    PdcpLayer H where
  ipBuffer :=
    { verbosity := verbosity, l4sQueue := { unitDist := seeds.unitDist } : IpBuffer }.configureL4s
      cfg.l4sC
  harqBuffer := HarqHandler.make cfg.pdcpC.airDelayVar cfg.pdcpC.rtxPeriod cfg.pdcpC.rtxPeriodVar
    cfg.pdcpC.rtxProcDelay cfg.pdcpC.rtxProcDelayVar seeds.harq
  packetH := packetH
  bhD := cfg.pdcpC.bhD
  bhDVar := cfg.pdcpC.bhDVar

/-- `set_pkt_delay_budget`. -/
def setPktDelayBudget (s : PdcpLayer H) (budgetS : ℚ) : PdcpLayer H :=
  { s with pktDelayBudgetS := budgetS }

/-- `has_pkts`. -/
def hasPkts (s : PdcpLayer H) : Bool := s.ipBuffer.hasPkts || s.harqBuffer.isPktReady

/-- `get_oldest_timestamp`. -/
def getOldestTimestamp (s : PdcpLayer H) : ℚ :=
  if s.harqBuffer.isPktReady then s.harqBuffer.getOldestT
  else if s.ipBuffer.hasPkts then s.ipBuffer.getOldestTimestamp
  else s.currentT

/-- `oldest_allowed_ip_t`. -/
def oldestAllowedIpT (s : PdcpLayer H) : ℚ := s.currentT - s.pktDelayBudgetS

/-- `is_expired`. -/
def isExpired (s : PdcpLayer H) (ipT : ℚ) : Bool := decide (ipT < s.oldestAllowedIpT)

/-- `get_error`. -/
def getError (s : PdcpLayer H) (isPartial : Bool) : ℚ × PdcpLayer H :=
  ((s.ipBuffer.getError isPartial).1, { s with ipBuffer := (s.ipBuffer.getError isPartial).2 })

/-- The block `handle_pkt` and `cleanup_expired_ip_pkts` start from. -/
def newBlock (s : PdcpLayer H) (ipT : ℚ) (mcs distance : ℤ) : HarqPkt :=
  HarqPkt.make s.currentId ipT s.currentT mcs distance 0 s.bhD s.bhDVar

variable [PacketHandler H Env In]

/-- `drop_harq_pkt`. -/
def dropHarqPkt (s : PdcpLayer H) (b : HarqPkt) : PdcpLayer H :=
  { s with
    ipBuffer := s.ipBuffer.dropPkt b.bits
    packetH := PacketHandler.drop (PacketHandler.recordError s.packetH b.bits) b }

/-- One packet of `drain_ingress_pkts`, which a full IP buffer refuses. -/
def offer (s : PdcpLayer H) (p : IpPkt) : PdcpLayer H :=
  match s.ipBuffer.addPkt p with
  | (true, b) => { s with ipBuffer := b }
  | (false, b) => { s with ipBuffer := b, packetH := PacketHandler.dropIngressPkt s.packetH p }

/-- The first `while` of `drain_ingress_pkts`. -/
def drainIngressLoop : ℕ → PdcpLayer H → PdcpLayer H
  | 0, s => s
  | n + 1, s =>
    match PacketHandler.popIngressPkt s.packetH with
    | none => s
    | some (p, h) => drainIngressLoop n ({ s with packetH := h }.offer p)

/-- The second `while` of `drain_ingress_pkts`, which `handle_pkt` has as well. -/
def drainAqmLoop : ℕ → PdcpLayer H → PdcpLayer H
  | 0, s => s
  | n + 1, s =>
    match s.ipBuffer.popAqmDroppedPkt {} with
    | none => s
    | some (b, dropped) =>
      drainAqmLoop n { s with
        ipBuffer := b
        packetH := PacketHandler.drop (PacketHandler.recordError s.packetH dropped.bits) dropped }

/-- The drain of the AQM dropped queue, each pass of which takes one packet. -/
def drainAqm (s : PdcpLayer H) : PdcpLayer H :=
  s.drainAqmLoop s.ipBuffer.l4sQueue.droppedQueue.length

/-- `drain_ingress_pkts`. -/
def drainIngressPkts (s : PdcpLayer H) : PdcpLayer H :=
  (s.drainIngressLoop (PacketHandler.base s.packetH).ingressPkts.length).drainAqm

/-- The `while` of `cleanup_expired_ip_pkts`, each pass of which takes one packet. -/
def cleanupIpLoop : ℕ → PdcpLayer H → PdcpLayer H
  | 0, s => s
  | n + 1, s =>
    if s.ipBuffer.hasPkts then
      let oldestIpT := s.ipBuffer.getOldestTimestamp
      if s.isExpired oldestIpT then
        let b := s.newBlock oldestIpT 0 0
        let s := { s with currentId := s.currentId + 1 }
        match s.ipBuffer.popOldestPkt b with
        | none => s
        | some (buf, b) => cleanupIpLoop n ({ s with ipBuffer := buf }.dropHarqPkt b)
      else s
    else s

/-- `cleanup_expired_ip_pkts`. -/
def cleanupExpiredIpPkts (s : PdcpLayer H) : PdcpLayer H :=
  s.cleanupIpLoop s.ipBuffer.backendSize

/-- The `while` of `cleanup_expired_harq_pkts`, each pass of which takes one block. -/
def cleanupHarqLoop : ℕ → PdcpLayer H → PdcpLayer H
  | 0, s => s
  | n + 1, s =>
    match s.harqBuffer.popPktOlderThan s.oldestAllowedIpT with
    | none => s
    | some (b, hq) => cleanupHarqLoop n ({ s with harqBuffer := hq }.dropHarqPkt b)

/-- `cleanup_expired_harq_pkts`. -/
def cleanupExpiredHarqPkts (s : PdcpLayer H) : PdcpLayer H :=
  s.cleanupHarqLoop s.harqBuffer.harqBuffer.length

/-- The top of `step`: the clock reaches the three parts, and `ingest` runs. -/
def advance (s : PdcpLayer H) (t : ℚ) (input : In) : PdcpLayer H :=
  { s with
    currentT := t
    ipBuffer := s.ipBuffer.step t
    harqBuffer := s.harqBuffer.step t
    packetH := (PacketHandler.ingest (PacketHandler.step s.packetH t) t input).1 }

/-- `step`. -/
def step (s : PdcpLayer H) (t : ℚ) (input : In) : PdcpLayer H :=
  (s.advance t input).drainIngressPkts.cleanupExpiredIpPkts.cleanupExpiredHarqPkts

/-- One pass of `handle_pkt` up to its first test: `get_pkts` fills a block and the
packets the AQM dropped on the way are drained. -/
def fetch (s : PdcpLayer H) (bits : ℚ) (mcs distance : ℤ) : HarqPkt × PdcpLayer H :=
  let (buf, b) := s.ipBuffer.getPkts bits (s.newBlock s.ipBuffer.getOldestTimestamp mcs distance)
  (b, { s with currentId := s.currentId + 1, ipBuffer := buf }.drainAqm)

/-- The `while` of `handle_pkt`. -/
def handleLoop (bits : ℚ) (mcs : ℤ) (sinr distance : ℚ) :
    ℕ → PdcpLayer H → Option (ℚ × PdcpLayer H)
  | 0, _ => none
  | n + 1, s =>
    if 0 < bits ∧ s.hasPkts then
      let (b, s) := s.fetch bits mcs (truncToInt distance)
      if b.bits ≤ 0 then handleLoop bits mcs sinr distance n s
      else if s.isExpired b.ipT then
        handleLoop bits mcs sinr distance n
          { s.dropHarqPkt b with expiredLog := s.expiredLog ++ [(s.oldestAllowedIpT, b)] }
      else if s.harqBuffer.getRtx mcs sinr 0 then
        some (0, { s with harqBuffer := s.harqBuffer.addPkts b })
      else some (b.bits, { s with packetH := PacketHandler.push s.packetH b })
    else some (0, s)

/-- `handle_pkt`: the answer is the number of bits sent. -/
def handlePkt (fuel : ℕ) (s : PdcpLayer H) (bits : ℚ) (mcs : ℤ) (sinr distance : ℚ) :
    Option (ℚ × PdcpLayer H) :=
  if s.harqBuffer.isPktReady then
    match s.harqBuffer.getPkt with
    | none => none
    | some (b, hq) =>
      let s := { s with harqBuffer := hq }
      if hq.getRtx b.mcsI sinr b.nTx then
        if b.nTx < 4 then some (0, { s with harqBuffer := hq.queue b distance })
        else some (0, s.dropHarqPkt b)
      else some (b.bits, { s with packetH := PacketHandler.push s.packetH b })
  else if s.hasPkts then handleLoop bits mcs sinr distance fuel s
  else some (0, s)

/-- `release`. -/
def release (s : PdcpLayer H) : PdcpLayer H × ℚ :=
  let (h, bits) := PacketHandler.release s.packetH
  ({ s with packetH := h }, bits)

/-- One event. -/
def apply (fuel : ℕ) (s : PdcpLayer H) : Event Env In → Option (PdcpLayer H)
  | .env e => some { s with packetH := PacketHandler.receive s.packetH e }
  | .step t input => some (s.step t input)
  | .handlePkt bits mcs sinr distance => (s.handlePkt fuel bits mcs sinr distance).map Prod.snd
  | .release => some s.release.1

/-- A run of events. -/
def exec (fuel : ℕ) (s : PdcpLayer H) (es : List (Event Env In)) : Option (PdcpLayer H) :=
  Runs.runAll (apply fuel) s es

/-- One operation. -/
def operate (fuel : ℕ) (s : PdcpLayer H) : Operation Env In → Option (PdcpLayer H)
  | .event e => s.apply fuel e
  | .getError isPartial => some (s.getError isPartial).2

/-- A run of operations. -/
def operateAll (fuel : ℕ) (s : PdcpLayer H) (ops : List (Operation Env In)) :
    Option (PdcpLayer H) := Runs.runAll (operate fuel) s ops

/-! ### The two kinds of layer

`make_packet_handler` chooses the handler by the kind of UE.
-/

/-- The layer of a `SIM_UE`, with its delay budget. -/
def simulated (cfg : PacketHandlerConfig) (verbosity : ℤ) (seeds : Seeds) (budgetS : ℚ) :
    PdcpLayer SimulatedPacketHandler :=
  (make cfg verbosity seeds (SimulatedPacketHandler.make cfg.pktSize cfg.pdcpC
    (if cfg.logTraffic then 1 else 0) seeds)).setPktDelayBudget budgetS

/-- The layer of any other UE, whose packets are captured. -/
def captured (cfg : PacketHandlerConfig) (verbosity : ℤ) (seeds : Seeds) (budgetS : ℚ) :
    PdcpLayer CapturedPacketHandler :=
  (make cfg verbosity seeds (CapturedPacketHandler.make cfg.hasInitT cfg.pdcpC
    (if cfg.logQuality then 1 else 0) seeds)).setPktDelayBudget budgetS

end PdcpLayer

end NetworkEmulator
