/-
The packet handler base class, `src/pdcp_layer/packet_handler.cpp`.

A packet handler is where packets enter the PDCP layer and where they leave it.
`PacketHandlerBase` holds the fields of `packet_handler`; the class `PacketHandler`
is its virtual interface, with the laws every handler keeps: only `ingest` adds to
the ingress queue, and what it adds are whole packets.

`ingested`, `settled` and `verdictLog` are history variables: the packets ever put
in the ingress queue, the fragments and entries the handler has finished with (and
whether it dropped them), and the calls of `packet_handler::verdict`.  Nothing in
the model reads them.
-/
import NetworkEmulator.Model.MeanHandler

namespace NetworkEmulator

/-- `pdcp_config`.  `max_rtx` is read by no function. -/
structure PdcpConfig where
  airDelayVar : ℚ := 0
  rtxPeriod : ℚ := 0
  rtxPeriodVar : ℚ := 0
  rtxProcDelay : ℚ := 0
  rtxProcDelayVar : ℚ := 0
  bhD : ℚ := 0
  bhDVar : ℚ := 0
  orderPackets : Bool := true
  deriving DecidableEq, Repr

/-- What the random sources of a PDCP layer will answer. -/
structure Seeds where
  unitDist : Draws := fun _ => 0
  harq : Draws := fun _ => 0
  gaussDist : Draws := fun _ => 0

/-- `final_packet_verdict`. -/
inductive FinalPacketVerdict where
  | accept
  | acceptCe
  | drop
  deriving DecidableEq, Repr

/-- Something a handler has finished with: delivered or dropped. -/
structure Settled where
  pkt : IpPkt
  dropped : Bool
  deriving DecidableEq, Repr

/-- The fields of `packet_handler`. -/
structure PacketHandlerBase where
  ingressPkts : List IpPkt := []
  pktList : List HarqPkt := []
  currentT : ℚ := 0
  bhD : ℚ := 0
  bhDVar : ℚ := 0
  verbosity : ℤ := 0
  tpMean : MeanHandler := {}
  lMean : MeanHandler := {}
  iplMean : MeanHandler := {}
  gMean : MeanHandler := {}
  eMean : MeanHandler := {}
  finalAcceptPacketsInterval : ℕ := 0
  finalAcceptCePacketsInterval : ℕ := 0
  finalDropPacketsInterval : ℕ := 0
  gaussDist : Draws := fun _ => 0
  ingested : List IpPkt := []
  settled : List Settled := []
  verdictLog : List (UInt32 × FinalPacketVerdict) := []

namespace PacketHandlerBase

/-- The constructor. -/
def make (pdcpC : PdcpConfig) (verbosity : ℤ) (seeds : Seeds) : PacketHandlerBase where
  bhD := pdcpC.bhD
  bhDVar := pdcpC.bhDVar
  verbosity := verbosity
  gaussDist := seeds.gaussDist

/-- `step`. -/
def step (h : PacketHandlerBase) (t : ℚ) : PacketHandlerBase :=
  { h with
    tpMean := h.tpMean.step
    gMean := h.gMean.step
    eMean := h.eMean.step
    finalAcceptPacketsInterval := 0
    finalAcceptCePacketsInterval := 0
    finalDropPacketsInterval := 0
    currentT := t }

/-- `record_error`. -/
def recordError (h : PacketHandlerBase) (bits : ℚ) : PacketHandlerBase :=
  { h with eMean := h.eMean.addIf h.verbosity bits }

/-- `push_ingress_pkt`. -/
def pushIngressPkt (h : PacketHandlerBase) (p : IpPkt) : PacketHandlerBase :=
  { h with
    gMean := h.gMean.addIf h.verbosity p.size
    ingressPkts := h.ingressPkts ++ [p]
    ingested := h.ingested ++ [p] }

/-- `push`: the block waits in `pkt_list` until its backhaul delay has passed. -/
def push (h : PacketHandlerBase) (b : HarqPkt) : PacketHandlerBase :=
  let b := { b with tOut := b.tOut + (b.backhaulD + h.gaussDist 0 * b.backhaulDVar) }
  { h with gaussDist := h.gaussDist.tail, pktList := h.pktList ++ [b] }

/-- `verdict`: one of the three counters of the interval. -/
def verdict (h : PacketHandlerBase) (p : IpPkt) (v : FinalPacketVerdict) : PacketHandlerBase :=
  { h with
    verdictLog := h.verdictLog ++ [(p.uid, v)]
    finalAcceptPacketsInterval :=
      if v = .accept then h.finalAcceptPacketsInterval + 1 else h.finalAcceptPacketsInterval
    finalAcceptCePacketsInterval :=
      if v = .acceptCe then h.finalAcceptCePacketsInterval + 1
      else h.finalAcceptCePacketsInterval
    finalDropPacketsInterval :=
      if v = .drop then h.finalDropPacketsInterval + 1 else h.finalDropPacketsInterval }

/-- Noting in the history that the handler has finished with `p`. -/
def settle (h : PacketHandlerBase) (p : IpPkt) (dropped : Bool) : PacketHandlerBase :=
  { h with settled := h.settled ++ [⟨p, dropped⟩] }

/-- The sums `release` forms over what it lets go. -/
structure ReleaseTotals where
  count : ℕ := 0
  bits : ℚ := 0
  latency : ℚ := 0
  ipLatency : ℚ := 0
  deriving DecidableEq, Repr

/-- The end of every `release`: the sums go into the statistics. -/
def recordRelease (h : PacketHandlerBase) (r : ReleaseTotals) : PacketHandlerBase :=
  { h with
    tpMean := h.tpMean.add r.bits
    lMean := if 0 < r.count then (h.lMean.add (r.latency / r.count)).step else h.lMean
    iplMean := if 0 < r.count then (h.iplMean.add (r.ipLatency / r.count)).step else h.iplMean }

end PacketHandlerBase

/-- A packet as `ingest` makes it: whole, unmarked and with its own ECN codepoint. -/
structure IpPkt.Fresh (p : IpPkt) : Prop where
  nonneg : 0 ≤ p.size
  whole : p.size = p.originalSize
  notFragment : p.isFragment = false
  unmarked : p.ceMarked = false
  ecn : p.ecn = p.originalEcn

/-- One more packet goes to the end of the ingress queue and of the record. -/
theorem pushIngressPkt_fresh {h h' : PacketHandlerBase} {p : IpPkt} (hp : p.Fresh)
    (hnew : ∃ new : List IpPkt, h'.ingressPkts = h.ingressPkts ++ new ∧
      h'.ingested = h.ingested ++ new ∧ ∀ p ∈ new, p.Fresh) :
    ∃ new : List IpPkt, (h'.pushIngressPkt p).ingressPkts = h.ingressPkts ++ new ∧
      (h'.pushIngressPkt p).ingested = h.ingested ++ new ∧ ∀ p ∈ new, p.Fresh := by
  obtain ⟨new, hin, hlog, hfresh⟩ := hnew
  refine ⟨new ++ [p], ?_, ?_, ?_⟩
  · rw [← List.append_assoc, ← hin]
    rfl
  · rw [← List.append_assoc, ← hlog]
    rfl
  · intro q hq
    rcases List.mem_append.mp hq with hq | hq
    · exact hfresh q hq
    · obtain rfl := List.mem_singleton.mp hq
      exact hp

/-- Two states of a handler with the same ingress queue and the same intake so far. -/
structure SameIntake (h h' : PacketHandlerBase) : Prop where
  ingress : h'.ingressPkts = h.ingressPkts
  ingested : h'.ingested = h.ingested

theorem SameIntake.rfl {h : PacketHandlerBase} : SameIntake h h := ⟨Eq.refl _, Eq.refl _⟩

theorem SameIntake.trans {h h' h'' : PacketHandlerBase} (h₁ : SameIntake h h')
    (h₂ : SameIntake h' h'') : SameIntake h h'' :=
  ⟨h₂.ingress.trans h₁.ingress, h₂.ingested.trans h₁.ingested⟩

/--
The virtual interface of `packet_handler`.  `In` is what `ingest` asks of the world
outside (the traffic model or the clock) and `Env` is what that world does to the
handler on its own.
-/
class PacketHandler (H : Type) (Env In : outParam Type) where
  base : H → PacketHandlerBase
  setBase : H → PacketHandlerBase → H
  ingest : H → ℚ → In → H × ℚ
  dropIngressPkt : H → IpPkt → H
  push : H → HarqPkt → H
  drop : H → HarqPkt → H
  release : H → H × ℚ
  receive : H → Env → H
  base_setBase : ∀ h b, base (setBase h b) = b
  ingest_fresh : ∀ h t i, ∃ new : List IpPkt,
    (base (ingest h t i).1).ingressPkts = (base h).ingressPkts ++ new ∧
    (base (ingest h t i).1).ingested = (base h).ingested ++ new ∧ ∀ p ∈ new, p.Fresh
  intake_dropIngressPkt : ∀ h p, SameIntake (base h) (base (dropIngressPkt h p))
  intake_push : ∀ h b, SameIntake (base h) (base (push h b))
  intake_drop : ∀ h b, SameIntake (base h) (base (drop h b))
  intake_release : ∀ h, SameIntake (base h) (base (release h).1)
  intake_receive : ∀ h e, SameIntake (base h) (base (receive h e))

namespace PacketHandler

variable {H Env In : Type} [PacketHandler H Env In]

/-- `packet_handler::step`, which no handler overrides. -/
def step (h : H) (t : ℚ) : H := setBase h ((base h).step t)

/-- `packet_handler::record_error`. -/
def recordError (h : H) (bits : ℚ) : H := setBase h ((base h).recordError bits)

/-- `packet_handler::pop_ingress_pkt`; `none` when `has_ingress_pkts` is false. -/
def popIngressPkt (h : H) : Option (IpPkt × H) :=
  match (base h).ingressPkts with
  | [] => none
  | p :: rest => some (p, setBase h { base h with ingressPkts := rest })

/-- What `pop_ingress_pkt` takes stood first, and only the queue changes. -/
theorem popIngressPkt_eq_some {h h' : H} {p : IpPkt} (hpop : popIngressPkt h = some (p, h')) :
    ∃ rest, (base h).ingressPkts = p :: rest ∧
      h' = setBase h { base h with ingressPkts := rest } := by
  unfold popIngressPkt at hpop
  split at hpop
  · cases hpop
  · rename_i q rest hq
    obtain ⟨rfl, rfl⟩ := Prod.mk.inj (Option.some.inj hpop)
    exact ⟨rest, hq, rfl⟩

@[simp] theorem base_step (h : H) (t : ℚ) : base (step h t) = (base h).step t :=
  base_setBase _ _

@[simp] theorem base_recordError (h : H) (x : ℚ) :
    base (recordError h x) = (base h).recordError x := base_setBase _ _

end PacketHandler

/-- A pointer to a handler of either kind, as `make_packet_handler` returns it. -/
instance {H H' Env Env' In In' : Type} [PacketHandler H Env In] [PacketHandler H' Env' In'] :
    PacketHandler (H ⊕ H') (Env ⊕ Env') (In × In') where
  base
    | .inl h => PacketHandler.base h
    | .inr h => PacketHandler.base h
  setBase
    | .inl h, b => .inl (PacketHandler.setBase h b)
    | .inr h, b => .inr (PacketHandler.setBase h b)
  ingest
    | .inl h, t, i => ((PacketHandler.ingest h t i.1).map .inl id)
    | .inr h, t, i => ((PacketHandler.ingest h t i.2).map .inr id)
  dropIngressPkt
    | .inl h, p => .inl (PacketHandler.dropIngressPkt h p)
    | .inr h, p => .inr (PacketHandler.dropIngressPkt h p)
  push
    | .inl h, b => .inl (PacketHandler.push h b)
    | .inr h, b => .inr (PacketHandler.push h b)
  drop
    | .inl h, b => .inl (PacketHandler.drop h b)
    | .inr h, b => .inr (PacketHandler.drop h b)
  release
    | .inl h => (PacketHandler.release h).map .inl id
    | .inr h => (PacketHandler.release h).map .inr id
  receive
    | .inl h, .inl e => .inl (PacketHandler.receive h e)
    | .inr h, .inr e => .inr (PacketHandler.receive h e)
    | h, _ => h
  base_setBase h b := by
    cases h with
    | inl h => exact PacketHandler.base_setBase h b
    | inr h => exact PacketHandler.base_setBase h b
  ingest_fresh h t i := by
    cases h with
    | inl h => exact PacketHandler.ingest_fresh h t i.1
    | inr h => exact PacketHandler.ingest_fresh h t i.2
  intake_dropIngressPkt h p := by
    cases h with
    | inl h => exact PacketHandler.intake_dropIngressPkt h p
    | inr h => exact PacketHandler.intake_dropIngressPkt h p
  intake_push h b := by
    cases h with
    | inl h => exact PacketHandler.intake_push h b
    | inr h => exact PacketHandler.intake_push h b
  intake_drop h b := by
    cases h with
    | inl h => exact PacketHandler.intake_drop h b
    | inr h => exact PacketHandler.intake_drop h b
  intake_release h := by
    cases h with
    | inl h => exact PacketHandler.intake_release h
    | inr h => exact PacketHandler.intake_release h
  intake_receive h e := by
    cases h with
    | inl h =>
      cases e with
      | inl e => exact PacketHandler.intake_receive h e
      | inr e => exact SameIntake.rfl
    | inr h =>
      cases e with
      | inl e => exact SameIntake.rfl
      | inr e => exact PacketHandler.intake_receive h e

end NetworkEmulator
