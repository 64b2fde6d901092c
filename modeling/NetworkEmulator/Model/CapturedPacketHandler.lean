/-
The handler of captured traffic, `src/pdcp_layer/captured_packet_handler.cpp`.

It collects the fragments of each packet in `outPkts` until the packet is complete,
and then gives netfilter the verdict.  With `order_packets` a packet is accepted
only when the packet named by its `prevUid` is the one remembered in
`prevReleasedId`.
-/
import NetworkEmulator.Model.PacketHandler
import NetworkEmulator.Model.PktCapture

namespace NetworkEmulator

/-- `captured_packet_handler`.  `hasInitT` tells whether `init_t` is set. -/
structure CapturedPacketHandler extends PacketHandlerBase where
  doCheck : Bool
  hasInitT : Bool
  prevUid : UInt32 := 0xFFFFFFFF
  prevReleasedId : Int32 := -1
  ceRewritePackets : ℕ := 0
  dropPackets : ℕ := 0
  pktCptr : PktCapture := {}
  outPkts : List IpPkt := []

namespace CapturedPacketHandler

/-- The constructor. -/
def make (hasInitT : Bool) (pdcpC : PdcpConfig) (verbosity : ℤ) (seeds : Seeds) :
    CapturedPacketHandler where
  toPacketHandlerBase := PacketHandlerBase.make pdcpC verbosity seeds
  doCheck := pdcpC.orderPackets
  hasInitT := hasInitT

/-- `get_current_ts`, given the reading of the wall clock. -/
def getCurrentTs (h : CapturedPacketHandler) (reading : ℚ) : ℚ :=
  if h.hasInitT then reading else h.currentT

/-- The packet `ingest` makes of a captured one. -/
def newPkt (h : CapturedPacketHandler) (reading : ℚ) (info : CapturedPacketInfo) : IpPkt :=
  { IpPkt.make (h.getCurrentTs reading) (info.bytes * 8) (info.bytes * 8) h.prevUid
      info.pktId h.bhD h.bhDVar with
    ecn := info.ecn, originalEcn := info.ecn }

/-- The `while` of `ingest`, one pass for each packet in the capture queue.  A
packet captured while it runs is as one captured before it. -/
def ingestLoop : ℕ → Draws → CapturedPacketHandler → ℚ → CapturedPacketHandler × ℚ
  | 0, _, h, bits => (h, bits)
  | n + 1, clock, h, bits =>
    match h.pktCptr.popCapturedPacket with
    | none => (h, bits)
    | some (info, c) =>
      let p := h.newPkt (clock 0) info
      ingestLoop n clock.tail
        { h with
          toPacketHandlerBase := h.toPacketHandlerBase.pushIngressPkt p
          prevUid := info.pktId
          pktCptr := c }
        (bits + p.size)

/-- `ingest`, given the readings of the wall clock. -/
def ingest (h : CapturedPacketHandler) (clock : Draws) : CapturedPacketHandler × ℚ :=
  ingestLoop h.pktCptr.capturedPackets.length clock h 0

/-- `sort_by_id`.  No two entries have one uid, so every sort gives this list. -/
def sortById (ps : List IpPkt) : List IpPkt := ps.insertionSort fun a b => a.uid ≤ b.uid

/-- `add_data`: `none` when no entry has the uid. -/
def addData (recv : IpPkt) : List IpPkt → Option (List IpPkt)
  | [] => none
  | p :: rest =>
    if p.uid = recv.uid then
      some ({ p with
        size := p.size + recv.size
        fragsRecovered := p.fragsRecovered + 1
        fragsCreated := recv.fragsCreated } :: rest)
    else (addData recv rest).map (p :: ·)

/-- `remove_data`: `none` when no entry has the uid. -/
def removeData (id : UInt32) (bits : ℚ) : List IpPkt → Option (List IpPkt)
  | [] => none
  | p :: rest =>
    if p.uid = id then some ({ p with erase := true, size := p.size + bits } :: rest)
    else (removeData id bits rest).map (p :: ·)

/-- `drop_ingress_pkt`. -/
def dropIngressPkt (h : CapturedPacketHandler) (p : IpPkt) : CapturedPacketHandler :=
  { h with
    outPkts := sortById (h.outPkts ++ [{ p with erase := true, tOut := h.currentT }]) }

/-- One fragment of `push`. -/
def pushOne (tOut ipT : ℚ) (out : List IpPkt) (p : IpPkt) : List IpPkt :=
  let p := { p with tOut := tOut, ipT := ipT }
  match addData p out with
  | some out => out
  | none => out ++ [{ p with fragsRecovered := p.fragsRecovered + 1 }]

/-- `push`. -/
def push (h : CapturedPacketHandler) (b : HarqPkt) : CapturedPacketHandler :=
  let tOut := b.tOut + (b.backhaulD + h.gaussDist 0 * b.backhaulDVar)
  { h with
    gaussDist := h.gaussDist.tail
    outPkts := sortById (b.pkts.foldl (pushOne tOut b.ipT) h.outPkts) }

/-- One fragment of `drop`. -/
def dropOne (tOut ipT : ℚ) (out : List IpPkt) (p : IpPkt) : List IpPkt :=
  let p := { p with tOut := tOut, ipT := ipT }
  match removeData p.uid p.size out with
  | some out => out
  | none => out ++ [{ p with erase := true }]

/-- `drop`.  Unlike `push`, it leaves the list unsorted. -/
def drop (h : CapturedPacketHandler) (b : HarqPkt) : CapturedPacketHandler :=
  { h with outPkts := b.pkts.foldl (dropOne b.tOut b.ipT) h.outPkts }

/-- `check_order`. -/
def checkOrder (h : CapturedPacketHandler) (id : Int32) : Bool :=
  if -1 < h.prevReleasedId ∧ h.doCheck then h.prevReleasedId == id else true

/-- `update_order`. -/
def updateOrder (h : CapturedPacketHandler) (id : Int32) : CapturedPacketHandler :=
  { h with prevReleasedId := id }

/-- The action `verdict` asks of the capture. -/
def captureAction : FinalPacketVerdict → PacketCaptureAction
  | .accept => .accept
  | .acceptCe => .acceptCe
  | .drop => .drop

/-- `verdict`. -/
def verdict (h : CapturedPacketHandler) (p : IpPkt) (v : FinalPacketVerdict) :
    CapturedPacketHandler :=
  { h with
    toPacketHandlerBase := (h.toPacketHandlerBase.verdict p v).settle p (v == .drop)
    pktCptr := h.pktCptr.verdict p.uid (captureAction v) }

open PacketHandlerBase (ReleaseTotals)

/-- One pass of the `for` of `release`; `none` is its `break`. -/
def releaseOne (h : CapturedPacketHandler) (p : IpPkt) (r : ReleaseTotals) :
    Option (CapturedPacketHandler × ReleaseTotals) :=
  if p.isReady then
    if p.erase then
      let h := h.updateOrder p.uid.toInt32
      some ({ h with dropPackets := h.dropPackets + 1 }.verdict p .drop, r)
    else if h.checkOrder p.prevUid.toInt32 then
      if p.tOut ≤ h.currentT then
        let r : ReleaseTotals :=
          { count := r.count + 1
            bits := r.bits + p.originalSize
            latency := r.latency + (h.currentT - p.currentT)
            ipLatency := r.ipLatency + (h.currentT - p.ipT) }
        let h := h.updateOrder p.uid.toInt32
        if p.ceMarked then
          some ({ h with ceRewritePackets := h.ceRewritePackets + 1 }.verdict p .acceptCe, r)
        else some (h.verdict p .accept, r)
      else none
    else none
  else none

/-- The `for` of `release`: the handler, the entries that stay, and the sums. -/
def releaseLoop : List IpPkt → CapturedPacketHandler → ReleaseTotals →
    CapturedPacketHandler × List IpPkt × ReleaseTotals
  | [], h, r => (h, [], r)
  | p :: rest, h, r =>
    match h.releaseOne p r with
    | some (h, r) => releaseLoop rest h r
    | none => (h, p :: rest, r)

/-- `release`. -/
def release (h : CapturedPacketHandler) : CapturedPacketHandler × ℚ :=
  let (h, kept, r) := releaseLoop h.outPkts h {}
  ({ h with
      toPacketHandlerBase := h.toPacketHandlerBase.recordRelease r
      outPkts := kept }, r.bits)

/-- A packet captured by netfilter. -/
def receive (h : CapturedPacketHandler) (m : NfqPacketMetadata) : CapturedPacketHandler :=
  { h with pktCptr := h.pktCptr.handleCapture m }

/-! ### The handler interface -/

private theorem newPkt_fresh (h : CapturedPacketHandler) (reading : ℚ)
    (info : CapturedPacketInfo) : (h.newPkt reading info).Fresh :=
  ⟨by simp only [newPkt, IpPkt.make]; positivity, rfl, by simp [newPkt, IpPkt.make], rfl, rfl⟩

section Ingest

variable {P : CapturedPacketHandler → Prop}
  (hpush : ∀ {g : CapturedPacketHandler} {info : CapturedPacketInfo}
    {rest : List CapturedPacketInfo} (reading : ℚ), g.pktCptr.capturedPackets = info :: rest → P g →
      P { g with
          toPacketHandlerBase := g.toPacketHandlerBase.pushIngressPkt (g.newPkt reading info)
          prevUid := info.pktId
          pktCptr := { g.pktCptr with capturedPackets := rest } })

include hpush

private theorem ingestLoop_rule (n : ℕ) : ∀ (clock : Draws) {h : CapturedPacketHandler} (bits : ℚ),
    P h → P (ingestLoop n clock h bits).1 := by
  induction n with
  | zero => intro clock h bits hP; exact hP
  | succ n ih =>
      intro clock h bits hP
      simp only [ingestLoop]
      split
      · exact hP
      · rename_i info c hpop
        obtain ⟨rest, hq, rfl⟩ := PktCapture.popCapturedPacket_eq_some hpop
        exact ih clock.tail _ (hpush (clock 0) hq hP)

/-- **The rule of `ingest`**: it keeps what every captured packet keeps. -/
theorem ingest_rule {h : CapturedPacketHandler} (hP : P h) (clock : Draws) :
    P (h.ingest clock).1 := ingestLoop_rule hpush _ clock 0 hP

end Ingest

private theorem ingest_fresh (h : CapturedPacketHandler) (clock : Draws) :
    ∃ new : List IpPkt,
      (h.ingest clock).1.ingressPkts = h.ingressPkts ++ new ∧
      (h.ingest clock).1.ingested = h.ingested ++ new ∧ ∀ p ∈ new, p.Fresh := by
  refine ingest_rule (P := fun g => ∃ new : List IpPkt, g.ingressPkts = h.ingressPkts ++ new ∧
    g.ingested = h.ingested ++ new ∧ ∀ p ∈ new, p.Fresh) ?_ ⟨[], by simp⟩ clock
  intro g info rest reading _ hg
  exact pushIngressPkt_fresh (newPkt_fresh g reading info) hg

/-- What one pass of `release` does, when it is not the `break`. -/
theorem releaseOne_cases {h h' : CapturedPacketHandler} {p : IpPkt} {r r' : ReleaseTotals}
    (hone : h.releaseOne p r = some (h', r')) :
    p.isReady = true ∧
    ((p.erase = true ∧ r' = r ∧
        h' = { h.updateOrder p.uid.toInt32 with dropPackets := h.dropPackets + 1 }.verdict p .drop)
      ∨ (p.erase = false ∧ h.checkOrder p.prevUid.toInt32 = true ∧ p.tOut ≤ h.currentT ∧
          r' = { count := r.count + 1
                 bits := r.bits + p.originalSize
                 latency := r.latency + (h.currentT - p.currentT)
                 ipLatency := r.ipLatency + (h.currentT - p.ipT) } ∧
          ((p.ceMarked = true ∧
              h' = { h.updateOrder p.uid.toInt32 with
                ceRewritePackets := h.ceRewritePackets + 1 }.verdict p .acceptCe)
            ∨ (p.ceMarked = false ∧
              h' = (h.updateOrder p.uid.toInt32).verdict p .accept)))) := by
  unfold releaseOne at hone
  split at hone
  · rename_i hready
    refine ⟨hready, ?_⟩
    split at hone
    · rename_i herase
      simp only [Option.some.injEq, Prod.mk.injEq] at hone
      exact Or.inl ⟨herase, hone.2.symm, hone.1.symm⟩
    · rename_i herase
      split at hone
      · rename_i hcheck
        split at hone
        · rename_i hdue
          refine Or.inr ⟨by simpa using herase, hcheck, hdue, ?_⟩
          simp only at hone
          split at hone <;>
            rename_i hce <;> simp only [Option.some.injEq, Prod.mk.injEq] at hone
          · exact ⟨hone.2.symm, Or.inl ⟨hce, hone.1.symm⟩⟩
          · exact ⟨hone.2.symm, Or.inr ⟨by simpa using hce, hone.1.symm⟩⟩
        · cases hone
      · cases hone
  · cases hone

/-- Every pass of `release` gives one verdict, and remembers whose it was. -/
theorem releaseOne_verdict {h h' : CapturedPacketHandler} {p : IpPkt} {r r' : ReleaseTotals}
    (hone : h.releaseOne p r = some (h', r')) :
    ∃ v, h'.toPacketHandlerBase = (h.toPacketHandlerBase.verdict p v).settle p (v == .drop) ∧
      h'.pktCptr = h.pktCptr.verdict p.uid (captureAction v) ∧
      h'.prevReleasedId = p.uid.toInt32 ∧ h'.prevUid = h.prevUid ∧ h'.doCheck = h.doCheck ∧
      h'.outPkts = h.outPkts ∧ (v = .acceptCe → p.ceMarked = true) ∧
      (v = .drop ↔ p.erase = true) := by
  obtain ⟨-, ⟨he, -, rfl⟩ | ⟨he, -, -, -, ⟨hce, rfl⟩ | ⟨hce, rfl⟩⟩⟩ := releaseOne_cases hone
  · exact ⟨.drop, rfl, rfl, rfl, rfl, rfl, rfl, by simp, by simp [he]⟩
  · exact ⟨.acceptCe, rfl, rfl, rfl, rfl, rfl, rfl, fun _ => hce, by simp [he]⟩
  · exact ⟨.accept, rfl, rfl, rfl, rfl, rfl, rfl, by simp, by simp [he]⟩

section Release

variable {P : CapturedPacketHandler → Prop}
  (hone : ∀ {g g' : CapturedPacketHandler} {p : IpPkt} {r r' : ReleaseTotals},
    g.releaseOne p r = some (g', r') → P g → P g')

include hone

/-- **The rule of `release`**: its loop keeps what every pass keeps. -/
theorem releaseLoop_rule (ps : List IpPkt) :
    ∀ {h : CapturedPacketHandler} (r : ReleaseTotals), P h → P (releaseLoop ps h r).1 := by
  induction ps with
  | nil => intro h r hP; exact hP
  | cons p ps ih =>
      intro h r hP
      simp only [releaseLoop]
      split
      · rename_i h' r' hpass
        exact ih r' (hone hpass hP)
      · exact hP

end Release

private theorem releaseLoop_intake (ps : List IpPkt) (h : CapturedPacketHandler)
    (r : ReleaseTotals) :
    SameIntake h.toPacketHandlerBase (releaseLoop ps h r).1.toPacketHandlerBase := by
  refine releaseLoop_rule (P := fun g => SameIntake h.toPacketHandlerBase g.toPacketHandlerBase)
    (fun hone hg => ?_) ps r .rfl
  obtain ⟨v, hbase, -⟩ := releaseOne_verdict hone
  refine hg.trans ?_
  rw [hbase]
  exact ⟨rfl, rfl⟩

instance : PacketHandler CapturedPacketHandler NfqPacketMetadata Draws where
  base h := h.toPacketHandlerBase
  setBase h b := { h with toPacketHandlerBase := b }
  ingest h _ clock := h.ingest clock
  dropIngressPkt := dropIngressPkt
  push := push
  drop := drop
  release := release
  receive := receive
  base_setBase _ _ := rfl
  ingest_fresh h _ clock := ingest_fresh h clock
  intake_dropIngressPkt _ _ := ⟨rfl, rfl⟩
  intake_push _ _ := ⟨rfl, rfl⟩
  intake_drop _ _ := ⟨rfl, rfl⟩
  intake_release h :=
    have hl := releaseLoop_intake h.outPkts h {}
    ⟨hl.ingress, hl.ingested⟩
  intake_receive _ _ := ⟨rfl, rfl⟩

end CapturedPacketHandler

end NetworkEmulator
