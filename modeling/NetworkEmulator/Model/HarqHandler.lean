/-
The retransmission buffer of `src/mac_layer/harq_handler.cpp`.

Blocks wait here for their next transmission.  The handler caches the ready time
of one block in `tOut`; `isPktReady` compares the cache, not the front block.

`getRtx` answers `false`: the statistical model is compiled out in the source.  Only what
is said of grants rests on that answer.
-/
import NetworkEmulator.Model.MeanHandler

namespace NetworkEmulator

/-- `INF`, the ready time of an empty buffer. -/
def harqInf : ℚ := 1000000000

/-- `SPEED_OF_LIGHT`. -/
def speedOfLight : ℚ := 300000000

/-- `harq_handler`. -/
structure HarqHandler where
  stchstcAir : Bool
  stchstcDelay : Bool
  rtxPDelay : ℚ
  rtxPDelayVar : ℚ
  rtxPeriod : ℚ
  rtxPeriodVar : ℚ
  oldestT : ℚ := -1
  tOut : ℚ := -1
  harqBuffer : List HarqPkt := []
  rtxMbit : ℤ := 0
  currentT : ℚ := 0
  generator : Draws := fun _ => 0

namespace HarqHandler

/-- The constructor. -/
def make (airDelay rtxPeriod rtxPeriodVar rtxPDelay rtxPDelayVar : ℚ) (generator : Draws) :
    HarqHandler where
  stchstcAir := decide (airDelay ≠ 0)
  stchstcDelay := decide (rtxPDelayVar ≠ 0) || decide (rtxPeriodVar ≠ 0)
  rtxPDelay := rtxPDelay
  rtxPDelayVar := rtxPDelayVar
  rtxPeriod := rtxPeriod
  rtxPeriodVar := rtxPeriodVar
  generator := generator

/-- `step`. -/
def step (h : HarqHandler) (t : ℚ) : HarqHandler := { h with currentT := t }

/-- `emulate_ack_delay`: the delay, and the handler with its draws used up. -/
def emulateAckDelay (h : HarqHandler) (distance : ℚ) : ℚ × HarqHandler :=
  let txDelay := 2 * distance / speedOfLight
  let (txDelay, h) :=
    if h.stchstcAir then
      (txDelay + (h.rtxPeriod + h.rtxPeriodVar * h.generator 0),
        { h with generator := h.generator.tail })
    else (txDelay + h.rtxPeriod, h)
  if h.stchstcDelay then
    (txDelay + (h.rtxPDelay + h.rtxPDelayVar * h.generator 0),
      { h with generator := h.generator.tail })
  else (txDelay + h.rtxPDelay, h)

/-- Appending a block, which sets the cached times to those of that block. -/
def pushBack (h : HarqHandler) (b : HarqPkt) : HarqHandler :=
  { h with harqBuffer := h.harqBuffer ++ [b], oldestT := b.currentT, tOut := b.tOut }

/-- `queue`: another transmission of a block that was tried before. -/
def queue (h : HarqHandler) (b : HarqPkt) (distance : ℚ) : HarqHandler :=
  let h := { h with rtxMbit := truncToInt (h.rtxMbit + b.bits * bit2Mbit) }
  let (delay, h) := h.emulateAckDelay distance
  h.pushBack ({ b with nTx := b.nTx + 1 }.setDelay delay)

/-- `add_pkts`. -/
def addPkts (h : HarqHandler) (b : HarqPkt) : HarqHandler :=
  let (delay, h) := h.emulateAckDelay b.distance
  h.pushBack (b.setDelay delay)

/-- `is_pkt_ready`. -/
def isPktReady (h : HarqHandler) : Bool := !h.harqBuffer.isEmpty && decide (h.tOut ≤ h.currentT)

/-- `get_pkt`: `none` is its failed assertion. -/
def getPkt (h : HarqHandler) : Option (HarqPkt × HarqHandler) :=
  if h.isPktReady then
    match h.harqBuffer with
    | [] => none
    | [b] => some (b, { h with harqBuffer := [], tOut := harqInf })
    | b :: next :: rest =>
      some (b, { h with
        harqBuffer := next :: rest, oldestT := next.currentT, tOut := next.tOut })
  else none

/-- The scan of `pop_pkt_older_than`: the first block older than the bound, and
the buffer without it. -/
def takeOlder (bound : ℚ) : List HarqPkt → Option (HarqPkt × List HarqPkt)
  | [] => none
  | b :: rest =>
    if bound ≤ b.ipT then (takeOlder bound rest).map fun (x, r) => (x, b :: r)
    else some (b, rest)

/-- `pop_pkt_older_than`. -/
def popPktOlderThan (h : HarqHandler) (bound : ℚ) : Option (HarqPkt × HarqHandler) :=
  match takeOlder bound h.harqBuffer with
  | none => none
  | some (b, rest) =>
    let mbit := truncToInt (h.rtxMbit - b.bits * bit2Mbit)
    let h := { h with rtxMbit := if mbit < 0 then 0 else mbit, harqBuffer := rest }
    match rest with
    | [] => some (b, { h with oldestT := h.currentT, tOut := harqInf })
    | next :: _ => some (b, { h with oldestT := next.currentT, tOut := next.tOut })

/-- `get_oldest_t`. -/
def getOldestT (h : HarqHandler) : ℚ := if h.harqBuffer.isEmpty then h.currentT else h.oldestT

/-- `get_rtx`. -/
def getRtx (_h : HarqHandler) (_mcs : ℤ) (_sinr : ℚ) (_nTx : ℕ) : Bool := false

end HarqHandler

end NetworkEmulator
