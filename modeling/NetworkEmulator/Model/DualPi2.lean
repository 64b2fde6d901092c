/-
The DualPI2 queue of `src/pdcp_layer/dualpi2_queue.cpp`.

Two FIFO queues share one link: the L4S queue takes ECT(1) and CE packets, the
classic queue the rest.  `popNext` picks a queue, takes its head and lets the AQM
mark it, drop it into `droppedQueue`, or pass it.  `step` runs the PI controller.

The source draws from `std::uniform_real_distribution` when, and only when, a
probability is strictly between 0 and 1.  The draws to come are the field
`unitDist`, so that a theorem about every `unitDist` is one about every outcome.

`dropLog` is a history variable: each packet ever pushed on `dropped_queue`, in
order.  Nothing in the model reads it.
-/
import NetworkEmulator.Model.MeanHandler

namespace NetworkEmulator

/-- `dualpi2_config`. -/
structure DualPi2Config where
  enabled : Bool := false
  k : ℚ := 2
  targetS : ℚ := 15 / 1000
  rttMaxS : ℚ := 1 / 10
  minThS : ℚ := 8 / 10000
  rangeS : ℚ := 4 / 10000
  pLmax : ℚ := 1
  classicGuardS : ℚ := 1 / 1000
  deriving DecidableEq, Repr

/-- `dualpi2_stats`. -/
structure DualPi2Stats where
  cePackets : ℕ := 0
  ceBits : ℚ := 0
  aqmDrops : ℕ := 0
  aqmDropBits : ℚ := 0
  l4sQueueSize : ℕ := 0
  classicQueueSize : ℕ := 0
  l4sQueueBits : ℚ := 0
  classicQueueBits : ℚ := 0
  pL : ℚ := 0
  pC : ℚ := 0
  pCl : ℚ := 0
  deriving DecidableEq, Repr

/-- `dualpi2_queue`. -/
structure DualPi2Queue where
  cfg : DualPi2Config := {}
  lQueue : List IpPkt := []
  cQueue : List IpPkt := []
  droppedQueue : List IpPkt := []
  lBits : ℚ := 0
  cBits : ℚ := 0
  currentT : ℚ := 0
  pBase : ℚ := 0
  pCl : ℚ := 0
  pC : ℚ := 0
  pLLast : ℚ := 0
  prevQ : ℚ := 0
  nextUpdateT : ℚ := 0
  lastClassicDequeueT : ℚ := 0
  totalStats : DualPi2Stats := {}
  intervalStats : DualPi2Stats := {}
  unitDist : Draws := fun _ => 0
  dropLog : List IpPkt := []

/-- `x -= y; if(x < 0.0f) x = 0.0f;` -/
def subClamped (x y : ℚ) : ℚ := if x - y < 0 then 0 else x - y

/-- What `mark_ce` writes into the packet. -/
def IpPkt.markCe (p : IpPkt) : IpPkt := { p with ecn := .ce, ceMarked := true }

namespace DualPi2Queue

/-- `configure`. -/
def configure (q : DualPi2Queue) (cfg : DualPi2Config) : DualPi2Queue :=
  { q with
    cfg := cfg, pBase := 0, pCl := 0, pC := 0, pLLast := 0, prevQ := 0
    nextUpdateT := q.currentT }

/-- `update_snapshot`. -/
def updateSnapshot (q : DualPi2Queue) : DualPi2Queue :=
  { q with
    totalStats := { q.totalStats with
      l4sQueueSize := q.lQueue.length
      classicQueueSize := q.cQueue.length
      l4sQueueBits := q.lBits
      classicQueueBits := q.cBits
      pL := q.pLLast
      pC := q.pC
      pCl := q.pCl } }

/-- `enqueue`: always at the back of the packet's own queue. -/
def enqueue (q : DualPi2Queue) (p : IpPkt) : DualPi2Queue :=
  (if p.isL4s then { q with lBits := q.lBits + p.size, lQueue := q.lQueue ++ [p] }
   else { q with cBits := q.cBits + p.size, cQueue := q.cQueue ++ [p] }).updateSnapshot

/-- `has_pkts`. -/
def hasPkts (q : DualPi2Queue) : Bool := !q.lQueue.isEmpty || !q.cQueue.isEmpty

/-- `size`. -/
def size (q : DualPi2Queue) : ℕ := q.lQueue.length + q.cQueue.length

/-- `queue_delay`. -/
def queueDelay (q : DualPi2Queue) : List IpPkt → ℚ
  | [] => 0
  | p :: _ => max 0 (q.currentT - p.currentT)

/-- `laqm`. -/
def laqm (q : DualPi2Queue) (qdelay : ℚ) : ℚ :=
  if qdelay ≤ q.cfg.minThS then 0
  else if q.cfg.rangeS ≤ 0 then q.cfg.pLmax
  else min q.cfg.pLmax ((qdelay - q.cfg.minThS) / q.cfg.rangeS)

/-- `mark_likelihood`: the certain cases draw nothing. -/
def markLikelihood (q : DualPi2Queue) (probability : ℚ) : Bool × DualPi2Queue :=
  if probability ≤ 0 then (false, q)
  else if 1 ≤ probability then (true, q)
  else (decide (q.unitDist 0 < probability), { q with unitDist := q.unitDist.tail })

/-- `choose_l4s`. -/
def chooseL4s (q : DualPi2Queue) : Bool :=
  if q.lQueue.isEmpty then false
  else if q.cQueue.isEmpty then true
  else if q.cfg.classicGuardS ≤ 0 then true
  else decide (q.currentT - q.lastClassicDequeueT < q.cfg.classicGuardS)

/-- `mark_ce`, with the counters it moves. -/
def markCe (q : DualPi2Queue) (p : IpPkt) : IpPkt × DualPi2Queue :=
  if p.ecn = .ce then (p, q)
  else
    (p.markCe,
      { q with
        totalStats := { q.totalStats with
          cePackets := q.totalStats.cePackets + 1
          ceBits := q.totalStats.ceBits + p.size }
        intervalStats := { q.intervalStats with
          cePackets := q.intervalStats.cePackets + 1
          ceBits := q.intervalStats.ceBits + p.size } })

/-- `record_drop`. -/
def recordDrop (q : DualPi2Queue) (p : IpPkt) : DualPi2Queue :=
  { q with
    totalStats := { q.totalStats with
      aqmDrops := q.totalStats.aqmDrops + 1
      aqmDropBits := q.totalStats.aqmDropBits + p.size }
    intervalStats := { q.intervalStats with
      aqmDrops := q.intervalStats.aqmDrops + 1
      aqmDropBits := q.intervalStats.aqmDropBits + p.size } }

/-- Taking the head of one of the two queues. -/
def takeFrom (q : DualPi2Queue) (fromL4s : Bool) : Option (IpPkt × DualPi2Queue) :=
  if fromL4s then
    match q.lQueue with
    | [] => none
    | p :: rest => some (p, { q with lQueue := rest, lBits := subClamped q.lBits p.size })
  else
    match q.cQueue with
    | [] => none
    | p :: rest => some (p, { q with cQueue := rest, cBits := subClamped q.cBits p.size })

/-- What is taken stood first in its queue, and only that queue and its counter change. -/
theorem takeFrom_eq_some {q q' : DualPi2Queue} {l4s : Bool} {p : IpPkt}
    (h : q.takeFrom l4s = some (p, q')) :
    (l4s = true ∧ ∃ rest, q.lQueue = p :: rest ∧
      q' = { q with lQueue := rest, lBits := subClamped q.lBits p.size }) ∨
    (l4s = false ∧ ∃ rest, q.cQueue = p :: rest ∧
      q' = { q with cQueue := rest, cBits := subClamped q.cBits p.size }) := by
  cases l4s with
  | true =>
      cases hq : q.lQueue with
      | nil => simp [takeFrom, hq] at h
      | cons x rest =>
          simp only [takeFrom, hq, if_true, Option.some.injEq, Prod.mk.injEq] at h
          obtain ⟨rfl, rfl⟩ := h
          exact Or.inl ⟨rfl, rest, rfl, rfl⟩
  | false =>
      cases hq : q.cQueue with
      | nil => simp [takeFrom, hq] at h
      | cons x rest =>
          simp only [takeFrom, hq, if_false, Bool.false_eq_true, Option.some.injEq,
            Prod.mk.injEq] at h
          obtain ⟨rfl, rfl⟩ := h
          exact Or.inr ⟨rfl, rest, rfl, rfl⟩

/-- The head `pop_next` takes: from the chosen queue, or from the other one when
that is empty; `none` when both are. -/
def popHead (q : DualPi2Queue) : Option (IpPkt × DualPi2Queue) :=
  match q.takeFrom q.chooseL4s with
  | some r => some r
  | none => q.takeFrom (!q.chooseL4s)

theorem popHead_eq_some {q q' : DualPi2Queue} {p : IpPkt} (h : q.popHead = some (p, q')) :
    ∃ l4s, q.takeFrom l4s = some (p, q') := by
  unfold popHead at h
  split at h
  · rename_i r hr
    obtain rfl := Option.some.inj h
    exact ⟨_, hr⟩
  · exact ⟨_, h⟩

/-- What `pop_next` does to the head it took: `none` when the AQM dropped it. -/
def examine (q : DualPi2Queue) (p : IpPkt) : Option IpPkt × DualPi2Queue :=
  if p.isL4s then
    let pL := max (q.laqm (max 0 (q.currentT - p.currentT))) q.pCl
    let pL := min (max pL 0) q.cfg.pLmax
    let q := { q with pLLast := pL }
    match q.markLikelihood pL with
    | (true, q) => let (p, q) := q.markCe p; (some p, q)
    | (false, q) => (some p, q)
  else
    let q := { q with lastClassicDequeueT := q.currentT }
    match q.markLikelihood q.pC with
    | (true, q) =>
      if p.ecn = .ect0 ∧ q.pC < 1 then
        let (p, q) := q.markCe p; (some p, q)
      else
        let p := { p with aqmDropped := true }
        let q := q.recordDrop p
        (none,
          { q with
            droppedQueue := q.droppedQueue ++ [p]
            dropLog := q.dropLog ++ [p] }.updateSnapshot)
    | (false, q) => (some p, q)

/-- The `while` of `pop_next`.  Each pass takes one packet, so `size` passes empty
both queues and the bound is never what stops the loop. -/
def popNextLoop : ℕ → DualPi2Queue → Option IpPkt × DualPi2Queue
  | 0, q => (none, q.updateSnapshot)
  | n + 1, q =>
    match q.popHead with
    | none => (none, q.updateSnapshot)
    | some (p, q) =>
      match q.examine p with
      | (some p, q) => (some p, q.updateSnapshot)
      | (none, q) => popNextLoop n q

/-- `pop_next`. -/
def popNext (q : DualPi2Queue) : Option IpPkt × DualPi2Queue := popNextLoop q.size q

/-- `has_dropped_pkts`. -/
def hasDroppedPkts (q : DualPi2Queue) : Bool := !q.droppedQueue.isEmpty

/-- `pop_dropped_pkt`. -/
def popDroppedPkt (q : DualPi2Queue) : Option (IpPkt × DualPi2Queue) :=
  match q.droppedQueue with
  | [] => none
  | p :: rest => some (p, { q with droppedQueue := rest })

/-- `take_l` of `pop_oldest`, and the choice `peek_oldest` makes: the L4S head goes
first unless the classic head is strictly older. -/
def oldestIsL4s (q : DualPi2Queue) : Bool :=
  match q.lQueue, q.cQueue with
  | _, [] => true
  | [], _ :: _ => false
  | l :: _, c :: _ => decide (l.currentT ≤ c.currentT)

/-- `pop_oldest`. -/
def popOldest (q : DualPi2Queue) : Option (IpPkt × DualPi2Queue) :=
  (q.takeFrom q.oldestIsL4s).map fun (p, q) => (p, q.updateSnapshot)

/-- `peek_oldest`. -/
def peekOldest (q : DualPi2Queue) : Option IpPkt :=
  match q.lQueue, q.cQueue with
  | [], c => c.head?
  | l :: _, [] => some l
  | l :: _, c :: _ => if l.currentT ≤ c.currentT then some l else some c

/-- `oldest_timestamp`. -/
def oldestTimestamp (q : DualPi2Queue) (fallbackT : ℚ) : ℚ :=
  match q.peekOldest with
  | none => fallbackT
  | some p => p.currentT

/-- `maybe_update_pi`. -/
def maybeUpdatePi (q : DualPi2Queue) : DualPi2Queue :=
  let tupdate := min q.cfg.targetS (q.cfg.rttMaxS / 3)
  let tupdate := if tupdate ≤ 0 then 1 / 1000 else tupdate
  if q.currentT < q.nextUpdateT then q
  else
    let curq := max (q.queueDelay q.lQueue) (q.queueDelay q.cQueue)
    let alpha := 1 / 10 * tupdate / (q.cfg.rttMaxS * q.cfg.rttMaxS)
    let beta := 3 / 10 / q.cfg.rttMaxS
    let pBase := q.pBase + (alpha * (curq - q.cfg.targetS) + beta * (curq - q.prevQ))
    let pBase := min (max pBase 0) 1
    { q with
      pBase := pBase
      pCl := min (max (pBase * q.cfg.k) 0) 1
      pC := min (max (pBase * pBase) 0) 1
      prevQ := curq
      nextUpdateT := q.currentT + tupdate }

/-- `step`. -/
def step (q : DualPi2Queue) (currentT : ℚ) : DualPi2Queue :=
  ({ q with currentT := currentT }.maybeUpdatePi).updateSnapshot

/-- What `get_stats` and `get_interval_stats` fill in from the queues. -/
def withQueues (q : DualPi2Queue) (stats : DualPi2Stats) : DualPi2Stats :=
  { stats with
    l4sQueueSize := q.lQueue.length
    classicQueueSize := q.cQueue.length
    l4sQueueBits := q.lBits
    classicQueueBits := q.cBits
    pL := q.pLLast
    pC := q.pC
    pCl := q.pCl }

/-- `get_stats`. -/
def getStats (q : DualPi2Queue) : DualPi2Stats := q.withQueues q.totalStats

/-- `get_interval_stats`: the answer, and the queue with its interval restarted. -/
def getIntervalStats (q : DualPi2Queue) : DualPi2Stats × DualPi2Queue :=
  (q.withQueues q.intervalStats,
    { q with intervalStats := { q.intervalStats with
        cePackets := 0, ceBits := 0, aqmDrops := 0, aqmDropBits := 0 } })

end DualPi2Queue

end NetworkEmulator
