/-
The IP buffer of `src/pdcp_layer/ip_buffer.cpp`.

It keeps the packets waiting for a grant, in a plain deque or, when
`l4s_cfg.enabled`, in a DualPI2 queue; the `backend…` functions choose.  `getPkts`
fills a block from it, cutting the last packet when the grant ends inside it, and
puts the remainder back with `backendRequeueFront`, which `addPkt` uses as well.
-/
import NetworkEmulator.Model.DualPi2

namespace NetworkEmulator

/-- A packet as `get_pkts` sends it whole. -/
def IpPkt.whole (p : IpPkt) : IpPkt :=
  { p with isFragment := false, fragsCreated := p.fragsCreated + 1 }

/-- A piece of `bits` of a packet as `get_pkts` cuts it. -/
def IpPkt.piece (p : IpPkt) (bits : ℚ) : IpPkt :=
  { p with size := bits, isFragment := true, fragsCreated := p.fragsCreated + 1 }

/-- `ip_buffer`. -/
structure IpBuffer where
  pktList : List IpPkt := []
  currentT : ℚ := 0
  oldestT : ℚ := 0
  verbosity : ℤ := 0
  maxSize : ℚ := 65500 * 8 * 20000
  currentSize : ℚ := 0
  gMean : MeanHandler := {}
  eMean : MeanHandler := {}
  generatedPktsInterval : ℕ := 0
  generatedPktsTotal : ℕ := 0
  l4sCfg : DualPi2Config := {}
  l4sQueue : DualPi2Queue := {}

namespace IpBuffer

/-- `configure_l4s`. -/
def configureL4s (b : IpBuffer) (cfg : DualPi2Config) : IpBuffer :=
  { b with l4sCfg := cfg, l4sQueue := b.l4sQueue.configure cfg }

/-! ### The backend -/

/-- `backend_has_pkts`. -/
def backendHasPkts (b : IpBuffer) : Bool :=
  if b.l4sCfg.enabled then b.l4sQueue.hasPkts else !b.pktList.isEmpty

/-- `backend_size`. -/
def backendSize (b : IpBuffer) : ℕ :=
  if b.l4sCfg.enabled then b.l4sQueue.size else b.pktList.length

/-- `pkt = front(); pop_front();`, which is both pops of the plain backend. -/
def popFront (b : IpBuffer) : Option IpPkt × IpBuffer :=
  match b.pktList with
  | [] => (none, b)
  | p :: rest => (some p, { b with pktList := rest })

/-- `backend_pop_next`. -/
def backendPopNext (b : IpBuffer) : Option IpPkt × IpBuffer :=
  if b.l4sCfg.enabled then
    let (p, q) := b.l4sQueue.popNext
    (p, { b with l4sQueue := q })
  else b.popFront

/-- `backend_pop_oldest`. -/
def backendPopOldest (b : IpBuffer) : Option IpPkt × IpBuffer :=
  if b.l4sCfg.enabled then
    match b.l4sQueue.popOldest with
    | none => (none, b)
    | some (p, q) => (some p, { b with l4sQueue := q })
  else b.popFront

/-- `backend_requeue_front`. -/
def backendRequeueFront (b : IpBuffer) (p : IpPkt) : IpBuffer :=
  if b.l4sCfg.enabled then { b with l4sQueue := b.l4sQueue.enqueue p }
  else if p.size ≤ p.originalSize ∧ p.isFragment then { b with pktList := p :: b.pktList }
  else { b with pktList := b.pktList ++ [p] }

/-- `backend_peek_oldest`. -/
def backendPeekOldest (b : IpBuffer) : Option IpPkt :=
  if b.l4sCfg.enabled then b.l4sQueue.peekOldest else b.pktList.head?

/-- `backend_oldest_timestamp`. -/
def backendOldestTimestamp (b : IpBuffer) : ℚ :=
  if b.l4sCfg.enabled then b.l4sQueue.oldestTimestamp b.currentT
  else match b.pktList with
    | [] => b.currentT
    | p :: _ => p.currentT

/-! ### The buffer -/

/-- `get_oldest_timestamp`. -/
def getOldestTimestamp (b : IpBuffer) : ℚ :=
  if b.backendHasPkts then b.backendOldestTimestamp else b.currentT

/-- `has_pkts`. -/
def hasPkts (b : IpBuffer) : Bool := b.backendHasPkts

/-- `drop_pkt`: the statistic takes an `int`. -/
def dropPkt (b : IpBuffer) (bits : ℚ) : IpBuffer :=
  { b with eMean := b.eMean.addIf b.verbosity (truncToInt bits) }

/-- `get_error`: the mean since the last call or, when `partial` is false, since the start. -/
def getError (b : IpBuffer) (isPartial : Bool) : ℚ × IpBuffer :=
  if 0 < b.verbosity then
    if isPartial then (bit2Mbit * b.eMean.get.1 * s2Ms, { b with eMean := b.eMean.get.2 })
    else (bit2Mbit * b.eMean.getTotal * s2Ms, b)
  else (-1, b)

/-- `add_pkt`: the answer is whether the packet was admitted. -/
def addPkt (b : IpBuffer) (p : IpPkt) : Bool × IpBuffer :=
  if b.maxSize < b.currentSize + p.size then
    (false, { b with eMean := b.eMean.addIf b.verbosity p.size })
  else
    let b := { b with
      currentSize := b.currentSize + p.size
      gMean := b.gMean.addIf b.verbosity p.size
      generatedPktsInterval := b.generatedPktsInterval + 1
      generatedPktsTotal := b.generatedPktsTotal + 1 }
    let b := if b.backendHasPkts then b else { b with oldestT := p.currentT }
    (true, b.backendRequeueFront p)

/-- `step`. -/
def step (b : IpBuffer) (currentT : ℚ) : IpBuffer :=
  { b with
    gMean := b.gMean.stepIf b.verbosity
    eMean := b.eMean.stepIf b.verbosity
    generatedPktsInterval := 0
    currentT := currentT
    l4sQueue := if b.l4sCfg.enabled then b.l4sQueue.step currentT else b.l4sQueue }

/-- The `while` of `get_pkts`.  Each pass takes a packet, and only the last puts
one back, so `backendSize` passes are enough. -/
def getPktsLoop : ℕ → ℚ → IpBuffer → HarqPkt → IpBuffer × HarqPkt
  | 0, _, b, out => (b, out)
  | n + 1, bits, b, out =>
    if 0 < bits ∧ b.backendHasPkts then
      match b.backendPopNext with
      | (none, b) => (b, out)
      | (some p, b) =>
        if p.size ≤ bits then
          let b := { b with oldestT := p.currentT }
          let out := { out with bits := out.bits + p.size, pkts := out.pkts ++ [p.whole] }
          if bits - p.size ≤ bitRoundMargin then (b, out)
          else getPktsLoop n (bits - p.size) b out
        else
          -- the cut takes all the bits that are left, so the loop ends here
          (b.backendRequeueFront (p.piece (p.size - bits)),
            { out with bits := out.bits + bits, pkts := out.pkts ++ [p.piece bits] })
    else (b, out)

/-- `get_pkts`: the block is filled in place, and its `bits` are the answer. -/
def getPkts (b : IpBuffer) (grant : ℚ) (out : HarqPkt) : IpBuffer × HarqPkt :=
  let (b, out) := getPktsLoop b.backendSize (⌊grant⌋ : ℤ) b { out with bits := 0 }
  ({ b with currentSize := subClamped b.currentSize out.bits }, out)

/-- `pop_oldest_pkt`: `none` is the answer `false`. -/
def popOldestPkt (b : IpBuffer) (out : HarqPkt) : Option (IpBuffer × HarqPkt) :=
  if b.backendHasPkts then
    match b.backendPopOldest with
    | (none, _) => none
    | (some p, b) =>
      let out := { out with bits := p.size, pkts := [p] }
      let b := { b with currentSize := subClamped b.currentSize out.bits }
      some ({ b with
        oldestT := if b.backendHasPkts then b.backendOldestTimestamp else b.currentT }, out)
  else none

/-- `pop_aqm_dropped_pkt`: `none` is the answer `false`. -/
def popAqmDroppedPkt (b : IpBuffer) (out : HarqPkt) : Option (IpBuffer × HarqPkt) :=
  if b.l4sCfg.enabled then
    match b.l4sQueue.popDroppedPkt with
    | none => none
    | some (p, q) =>
      let out := { out with
        bits := p.size, ipT := p.ipT, currentT := b.currentT, tOut := b.currentT, pkts := [p] }
      some ({ b with l4sQueue := q, currentSize := subClamped b.currentSize out.bits }, out)
  else none

end IpBuffer

end NetworkEmulator
