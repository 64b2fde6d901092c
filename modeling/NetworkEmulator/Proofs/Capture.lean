/-
What a layer over the captured handler remembers of its past.

The packets it took in are the captured packets it popped, in order, each naming the
one before it as its predecessor; the verdicts it asked for are those of the entries
it is done with, in order, and every such entry was complete; and `prevReleasedId` is
the id of the last of them.
-/
import NetworkEmulator.Proofs.Flow

namespace NetworkEmulator

/-- What a packet says of the captured packet it was made of. -/
structure Ticket where
  uid : UInt32
  prevUid : UInt32
  originalSize : ℚ
  originalEcn : Ecn

def IpPkt.ticket (p : IpPkt) : Ticket := ⟨p.uid, p.prevUid, p.originalSize, p.originalEcn⟩

/-- The tickets of captured packets, the first of which follows `prev`. -/
def tickets (prev : UInt32) : List CapturedPacketInfo → List Ticket
  | [] => []
  | info :: rest => ⟨info.pktId, prev, info.bytes * 8, info.ecn⟩ :: tickets info.pktId rest

/-- The id of the last captured packet, or `prev`. -/
def lastId (prev : UInt32) (l : List CapturedPacketInfo) : UInt32 :=
  (l.map CapturedPacketInfo.pktId).getLastD prev

/-- The initial value of `prev_uid`. -/
def firstPrevUid : UInt32 := 0xFFFFFFFF

theorem lastId_cons (prev : UInt32) (info : CapturedPacketInfo) (l : List CapturedPacketInfo) :
    lastId prev (info :: l) = lastId info.pktId l := by
  rw [lastId, List.map_cons, List.getLastD_cons, lastId]

theorem tickets_concat (l : List CapturedPacketInfo) (info : CapturedPacketInfo) :
    ∀ prev, tickets prev (l ++ [info])
      = tickets prev l ++ [⟨info.pktId, lastId prev l, info.bytes * 8, info.ecn⟩] := by
  induction l with
  | nil => intro prev; rfl
  | cons x l ih => intro prev; rw [List.cons_append, tickets, ih, lastId_cons]; rfl

theorem map_uid_tickets (l : List CapturedPacketInfo) :
    ∀ prev, (tickets prev l).map Ticket.uid = l.map CapturedPacketInfo.pktId := by
  induction l with
  | nil => intro prev; rfl
  | cons x l ih => intro prev; simp [tickets, ih]

/-- Every ticket is that of one captured packet, which names the one before it. -/
theorem mem_tickets {t : Ticket} {l : List CapturedPacketInfo} :
    ∀ {prev}, t ∈ tickets prev l → ∃ a info b, l = a ++ info :: b ∧
      t = ⟨info.pktId, lastId prev a, info.bytes * 8, info.ecn⟩ := by
  induction l with
  | nil => intro prev ht; cases ht
  | cons x l ih =>
      intro prev ht
      rcases List.mem_cons.mp ht with rfl | ht
      · exact ⟨[], x, l, rfl, rfl⟩
      · obtain ⟨a, info, b, rfl, rfl⟩ := ih ht
        exact ⟨x :: a, info, b, rfl, by rw [lastId_cons]⟩

/-- Every captured packet has its ticket. -/
theorem ticket_of_mem {info : CapturedPacketInfo} {l : List CapturedPacketInfo} :
    ∀ prev, info ∈ l → ∃ t ∈ tickets prev l, t.uid = info.pktId ∧
      t.originalSize = info.bytes * 8 := by
  induction l with
  | nil => intro prev h; cases h
  | cons x l ih =>
      intro prev h
      rcases List.mem_cons.mp h with rfl | h
      · exact ⟨_, List.mem_cons_self .., rfl, rfl⟩
      · obtain ⟨t, ht, hu, hs⟩ := ih x.pktId h
        exact ⟨t, List.mem_cons_of_mem _ ht, hu, hs⟩

/-- What the captured handler does with an entry it is done with. -/
def IpPkt.action (p : IpPkt) : PacketCaptureAction :=
  if p.erase then .drop else if p.ceMarked then .acceptCe else .accept

/-- The answer given to netfilter for an entry. -/
def Settled.answer (s : Settled) : UInt32 × PacketCaptureAction := (s.pkt.uid, s.pkt.action)

namespace CapturedPacketHandler

/-- The id `prevReleasedId` holds when the entries `l` are done with. -/
def remembered (l : List IpPkt) : Int32 := (l.map fun p => p.uid.toInt32).getLastD (-1)

/-- The past of a captured handler. -/
structure Chronicle (h : CapturedPacketHandler) : Prop where
  intake : ∃ popped, h.pktCptr.captureLog = popped ++ h.pktCptr.capturedPackets ∧
    h.ingested.map IpPkt.ticket = tickets firstPrevUid popped ∧
    h.prevUid = lastId firstPrevUid popped
  answers : h.pktCptr.verdicts = h.settled.map Settled.answer
  ready : ∀ s ∈ h.settled, s.pkt.isReady = true
  last : h.prevReleasedId = remembered h.done

/-- A fragment's packet is a captured one, and names the one captured before it. -/
theorem Chronicle.captured {h : CapturedPacketHandler} (hc : Chronicle h) {p : IpPkt}
    (hp : p.StemsFrom h.ingested) : ∃ a info b, h.pktCptr.captureLog = a ++ info :: b ∧
      p.uid = info.pktId ∧ p.prevUid = lastId firstPrevUid a ∧
      p.originalSize = info.bytes * 8 ∧ p.originalEcn = info.ecn := by
  obtain ⟨popped, hlog, hing, -⟩ := hc.intake
  obtain ⟨q, hq, hu, hp, hs, he, -⟩ := hp
  have hmem : q.ticket ∈ tickets firstPrevUid popped := hing ▸ List.mem_map_of_mem hq
  obtain ⟨a, info, b, hl, ht⟩ := mem_tickets hmem
  simp only [IpPkt.ticket, Ticket.mk.injEq] at ht
  refine ⟨a, info, b ++ h.pktCptr.capturedPackets, ?_, ?_, ?_, ?_, ?_⟩
  · rw [hlog, hl, List.append_assoc, List.cons_append]
  · rw [← hu, ht.1]
  · rw [← hp, ht.2.1]
  · rw [← hs, ht.2.2.1]
  · rw [← he, ht.2.2.2]

/-- Everything the chronicle speaks of is as it was. -/
structure SamePast (h h' : CapturedPacketHandler) : Prop where
  captureLog : h'.pktCptr.captureLog = h.pktCptr.captureLog
  capturedPackets : h'.pktCptr.capturedPackets = h.pktCptr.capturedPackets
  ingested : h'.ingested = h.ingested
  prevUid : h'.prevUid = h.prevUid
  verdicts : h'.pktCptr.verdicts = h.pktCptr.verdicts
  settled : h'.settled = h.settled
  prevReleasedId : h'.prevReleasedId = h.prevReleasedId

theorem Chronicle.of_samePast {h h' : CapturedPacketHandler} (hs : SamePast h h')
    (hc : Chronicle h) : Chronicle h' := by
  obtain ⟨popped, hlog, hing, hprev⟩ := hc.intake
  refine ⟨⟨popped, ?_, ?_, ?_⟩, ?_, ?_, ?_⟩
  · rw [hs.captureLog, hs.capturedPackets, hlog]
  · rw [hs.ingested, hing]
  · rw [hs.prevUid, hprev]
  · rw [hs.verdicts, hs.settled, hc.answers]
  · rw [hs.settled]; exact hc.ready
  · rw [hs.prevReleasedId, hc.last]
    simp only [PacketHandlerBase.done, hs.settled]

/-- A captured packet joins the end of the capture queue. -/
theorem Chronicle.receive {h : CapturedPacketHandler} (hc : Chronicle h)
    (m : NfqPacketMetadata) : Chronicle (h.receive m) := by
  obtain ⟨popped, hlog, hing, hprev⟩ := hc.intake
  refine ⟨⟨popped, ?_, hing, hprev⟩, hc.answers, hc.ready, hc.last⟩
  simp [CapturedPacketHandler.receive, PktCapture.handleCapture,
    PktCapture.enqueueCapturedPacket, hlog]

theorem Chronicle.ingest {h : CapturedPacketHandler} (hc : Chronicle h) (clock : Draws) :
    Chronicle (h.ingest clock).1 := by
  refine ingest_rule (P := Chronicle) (fun {g x rest} reading hq hg => ?_) hc clock
  obtain ⟨popped, hlog, hing, hprev⟩ := hg.intake
  refine ⟨⟨popped ++ [x], ?_, ?_, ?_⟩, hg.answers, hg.ready, hg.last⟩
  · simp [hlog, hq]
  · simp [PacketHandlerBase.pushIngressPkt, hing, tickets_concat, hprev, newPkt, IpPkt.ticket,
      IpPkt.make]
  · simp [lastId]

/-- One pass of `release` is one verdict more. -/
theorem releaseOne_answer {h h' : CapturedPacketHandler} {p : IpPkt}
    {r r' : PacketHandlerBase.ReleaseTotals} (hone : h.releaseOne p r = some (h', r')) :
    h'.pktCptr.verdicts = h.pktCptr.verdicts ++ [(p.uid, p.action)] ∧
      h'.settled = h.settled ++ [⟨p, p.erase⟩] ∧ p.isReady = true ∧
      h'.prevReleasedId = p.uid.toInt32 := by
  obtain ⟨hready, ⟨he, -, rfl⟩ | ⟨he, -, -, -, ⟨hce, rfl⟩ | ⟨hce, rfl⟩⟩⟩ := releaseOne_cases hone
  all_goals
    refine ⟨?_, ?_, hready, rfl⟩
    · simp [verdict, IpPkt.action, captureAction, updateOrder, *]
    · simp [verdict, PacketHandlerBase.settle, PacketHandlerBase.verdict, updateOrder, he]

private theorem releaseOne_frame {h h' : CapturedPacketHandler} {p : IpPkt}
    {r r' : PacketHandlerBase.ReleaseTotals} (hone : h.releaseOne p r = some (h', r')) :
    h'.pktCptr.captureLog = h.pktCptr.captureLog ∧
      h'.pktCptr.capturedPackets = h.pktCptr.capturedPackets ∧ h'.ingested = h.ingested ∧
      h'.prevUid = h.prevUid := by
  obtain ⟨v, hbase, hc, -, hprev, -⟩ := releaseOne_verdict hone
  refine ⟨by simp [hc], by simp [hc], ?_, hprev⟩
  rw [hbase]; rfl

theorem Chronicle.releaseOne {h h' : CapturedPacketHandler} {p : IpPkt}
    {r r' : PacketHandlerBase.ReleaseTotals} (hone : h.releaseOne p r = some (h', r'))
    (hc : Chronicle h) : Chronicle h' := by
  obtain ⟨popped, hlog, hing, hprev⟩ := hc.intake
  obtain ⟨hv, hs, hready, hlast⟩ := releaseOne_answer hone
  obtain ⟨hcap, hque, hin, hpu⟩ := releaseOne_frame hone
  refine ⟨⟨popped, by rw [hcap, hque, hlog], by rw [hin, hing], by rw [hpu, hprev]⟩, ?_, ?_, ?_⟩
  · rw [hv, hs, hc.answers]
    simp [Settled.answer]
  · intro s hmem
    rw [hs] at hmem
    rcases List.mem_append.mp hmem with hmem | hmem
    · exact hc.ready s hmem
    · obtain rfl := List.mem_singleton.mp hmem
      exact hready
  · rw [hlast]
    simp [remembered, PacketHandlerBase.done, hs]

theorem releaseLoop_chronicle (ps : List IpPkt) (h : CapturedPacketHandler)
    (r : PacketHandlerBase.ReleaseTotals) (hc : Chronicle h) :
    Chronicle (releaseLoop ps h r).1 :=
  releaseLoop_rule (fun hone hg => hg.releaseOne hone) ps r hc

theorem Chronicle.release {h : CapturedPacketHandler} (hc : Chronicle h) :
    Chronicle h.release.1 := by
  have hpast : SamePast (releaseLoop h.outPkts h {}).1 h.release.1 :=
    ⟨rfl, rfl, rfl, rfl, rfl, rfl, rfl⟩
  exact (releaseLoop_chronicle h.outPkts h {} hc).of_samePast hpast

private theorem samePast_setBase (h : CapturedPacketHandler) (b : PacketHandlerBase)
    (hi : b.ingested = h.ingested) (hs : b.settled = h.settled) :
    SamePast h { h with toPacketHandlerBase := b } := ⟨rfl, rfl, hi, rfl, rfl, hs, rfl⟩

private theorem samePast_dropIngressPkt (h : CapturedPacketHandler) (p : IpPkt) :
    SamePast h (h.dropIngressPkt p) := ⟨rfl, rfl, rfl, rfl, rfl, rfl, rfl⟩

private theorem samePast_push (h : CapturedPacketHandler) (b : HarqPkt) :
    SamePast h (h.push b) := ⟨rfl, rfl, rfl, rfl, rfl, rfl, rfl⟩

private theorem samePast_drop (h : CapturedPacketHandler) (b : HarqPkt) :
    SamePast h (h.drop b) := ⟨rfl, rfl, rfl, rfl, rfl, rfl, rfl⟩

private theorem samePast_popIngressPkt {h h' : CapturedPacketHandler} {p : IpPkt}
    (hpop : PacketHandler.popIngressPkt h = some (p, h')) : SamePast h h' := by
  obtain ⟨rest, -, rfl⟩ := PacketHandler.popIngressPkt_eq_some hpop
  exact samePast_setBase h _ rfl rfl

end CapturedPacketHandler

open CapturedPacketHandler in
/-- **Every move keeps the chronicle.** -/
theorem Move.chronicle {k : MoveKind} {c c' : Custody CapturedPacketHandler} (hm : Move c k c')
    (h : Chronicle c.packetH) : Chronicle c'.packetH := by
  cases hm with
  | receive e => exact h.receive e
  | ingest t clock => exact h.ingest clock
  | release => exact h.release
  | tick t => exact h.of_samePast (samePast_setBase _ _ rfl rfl)
  | recordError x => exact h.of_samePast (samePast_setBase _ _ rfl rfl)
  | enter hpop => exact h.of_samePast (samePast_popIngressPkt hpop)
  | refuse hpop =>
      exact (h.of_samePast (samePast_popIngressPkt hpop)).of_samePast
        (samePast_dropIngressPkt _ _)
  | takeDropped hdrop => exact h.of_samePast (samePast_drop _ _)
  | drop hsome => exact h.of_samePast (samePast_drop _ _)
  | push hsome => exact h.of_samePast (samePast_push _ _)
  | fetch | unstore | store | discard => exact h

private theorem ingest_past (h : CapturedPacketHandler) (clock : Draws) :
    (h.ingest clock).1.settled = h.settled ∧
      (h.ingest clock).1.pktCptr.captureLog = h.pktCptr.captureLog :=
  CapturedPacketHandler.ingest_rule (P := fun g => g.settled = h.settled ∧
    g.pktCptr.captureLog = h.pktCptr.captureLog) (fun _ _ hg => hg) ⟨rfl, rfl⟩ clock

open CapturedPacketHandler in
/-- Only `release` is done with entries, and only the world captures packets. -/
theorem Move.inside_past {c c' : Custody CapturedPacketHandler} (hm : Move c .inside c') :
    c'.packetH.settled = c.packetH.settled ∧
      c.packetH.pktCptr.captureLog <+: c'.packetH.pktCptr.captureLog := by
  have hsame {h h' : CapturedPacketHandler} (hs : SamePast h h') :
      h'.settled = h.settled ∧ h.pktCptr.captureLog <+: h'.pktCptr.captureLog :=
    ⟨hs.settled, by rw [hs.captureLog]⟩
  cases hm with
  | receive e => exact ⟨rfl, List.prefix_append _ _⟩
  | ingest t clock =>
      obtain ⟨hs, hl⟩ := ingest_past c.packetH clock
      refine ⟨hs, ?_⟩
      show _ <+: (c.packetH.ingest clock).1.pktCptr.captureLog
      rw [hl]
  | tick t => exact hsame (samePast_setBase _ _ rfl rfl)
  | recordError x => exact hsame (samePast_setBase _ _ rfl rfl)
  | enter hpop => exact hsame (samePast_popIngressPkt hpop)
  | refuse hpop =>
      have hpast := hsame (samePast_popIngressPkt hpop)
      exact ⟨hpast.1, hpast.2⟩
  | takeDropped | drop | push | fetch | unstore | store | discard =>
      exact ⟨rfl, List.prefix_rfl⟩

theorem chronicle_make (hasInitT : Bool) (pdcpC : PdcpConfig) (verbosity : ℤ) (seeds : Seeds) :
    (CapturedPacketHandler.make hasInitT pdcpC verbosity seeds).Chronicle :=
  ⟨⟨[], rfl, rfl, rfl⟩, rfl, fun _ hs => (List.not_mem_nil hs).elim, rfl⟩

end NetworkEmulator
