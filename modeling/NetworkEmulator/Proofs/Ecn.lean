/-
ECN safety.

A marked packet is CE and came as ECT; an unmarked one still has the codepoint it came
with.  Every piece of a packet inherits that, so it holds of all packets anywhere.
With it the AQM, which drops classic packets only, never drops a packet that came as
ECT(1) or CE, and no packet that came as Not-ECT is ever answered with CE.
-/
import NetworkEmulator.Proofs.Capture

namespace NetworkEmulator

/-- A packet whose mark and codepoints agree. -/
structure IpPkt.EcnOk (p : IpPkt) : Prop where
  marked : p.ceMarked = true → p.ecn = .ce ∧ (p.originalEcn = .ect0 ∨ p.originalEcn = .ect1)
  unmarked : p.ceMarked = false → p.ecn = p.originalEcn

theorem IpPkt.Fresh.ecnOk {p : IpPkt} (h : p.Fresh) : p.EcnOk :=
  ⟨fun hm => by simp [h.unmarked] at hm, fun _ => h.ecn⟩

theorem inherited_ecnOk (G : AddSubgroup ℚ) :
    Inherited Relabel (Cut G) Join IpPkt.EcnOk where
  relabel {p _} h hr := by
    rcases hr with hr | hr
    · cases hr with
      | flags frag dropped n => exact ⟨h.marked, h.unmarked⟩
      | mark hecn =>
          -- an ECT packet is not marked yet, so the codepoint it has is its own
          have hnot : p.ceMarked = false := by
            by_contra hc
            have hce := (h.marked (by simpa using hc)).1
            simp [hce] at hecn
          exact ⟨fun _ => ⟨rfl, by simpa [IpPkt.markCe, ← h.unmarked hnot] using hecn⟩,
            fun hm => by simp [IpPkt.markCe] at hm⟩
    · cases hr; exact ⟨h.marked, h.unmarked⟩
  cut h hc := by cases hc; exact ⟨⟨h.marked, h.unmarked⟩, ⟨h.marked, h.unmarked⟩⟩
  join h _ hj := by cases hj; exact ⟨h.marked, h.unmarked⟩

/-- A classic packet is not marked, and came as Not-ECT or ECT(0). -/
theorem IpPkt.EcnOk.classic {p : IpPkt} (h : p.EcnOk) (hc : p.isL4s = false) :
    (p.originalEcn = .notEct ∨ p.originalEcn = .ect0) ∧ p.ceMarked = false := by
  have hnot : p.ceMarked = false := by
    by_contra hm
    simp [IpPkt.isL4s, (h.marked (by simpa using hm)).1] at hc
  refine ⟨?_, hnot⟩
  rw [← h.unmarked hnot]
  cases hecn : p.ecn <;> simp_all [IpPkt.isL4s]

section Invariant

variable {H Env In : Type} [PacketHandler H Env In] [Keeper H]

/-- The invariant: all packets are sound, and those the AQM dropped are classic ones. -/
structure EcnInv (c : Custody H) : Prop where
  all : ∀ p ∈ c.all, p.EcnOk
  dropLog : ∀ p ∈ c.shelf.dropLog,
    (p.originalEcn = .notEct ∨ p.originalEcn = .ect0) ∧ p.ceMarked = false
  dropped : c.shelf.dropped ⊆ c.shelf.dropLog

omit [Keeper H] in
private theorem dropped_subset {k : MoveKind} {c c' : Custody H} (hm : Move c k c')
    (h : c.shelf.dropped ⊆ c.shelf.dropLog) : c'.shelf.dropped ⊆ c'.shelf.dropLog := by
  cases hm with
  | enter hpop hwait hdrop hlog => rw [hdrop, hlog]; exact h
  | takeDropped hdrop hwait hlog hb =>
      rw [hlog]
      rw [hdrop] at h
      exact List.Subset.trans (List.subset_cons_self _ _) h
  | fetch hnone hy =>
      obtain ⟨ds, hd, hl, -, -⟩ := hy ⊤ (fun _ => trivial) (fun _ _ => trivial)
      rw [hd, hl]
      exact List.append_subset.mpr
        ⟨List.Subset.trans h (List.subset_append_left _ _), List.subset_append_right _ _⟩
  | _ => exact h

theorem EcnInv.move {k : MoveKind} {c c' : Custody H} (hm : Move c k c') (h : EcnInv c) :
    EcnInv c' := by
  have hall : ∀ p ∈ c'.all, p.EcnOk :=
    hm.forall_all (inherited_ecnOk ⊤) (fun _ => trivial) (fun _ _ => trivial)
      (fun _ _ hf => hf.ecnOk) h.all
  refine ⟨hall, fun p hp => ?_, dropped_subset hm h.dropped⟩
  rcases hm.dropLog p hp with hp | ⟨hp, hc⟩
  · exact h.dropLog p hp
  · exact (hall p hp).classic hc

end Invariant

/-! ### Simulated traffic carries no ECN -/

namespace SimulatedPacketHandler

/-- Packets come as Not-ECT, and a recorded congestion signal is that of a marked
fragment. -/
structure Unsignalled (h : SimulatedPacketHandler) : Prop where
  ingested : ∀ p ∈ h.ingested, p.originalEcn = .notEct
  pending : ∀ u st, h.pendingResults u = some st → st.congestionSignal = true →
    ∃ p ∈ h.done, p.ceMarked = true
  verdicts : ∀ v ∈ h.verdictLog, v.2 = .acceptCe → ∃ p ∈ h.done, p.ceMarked = true

/-- What these properties read. -/
private structure SameTally (h h' : SimulatedPacketHandler) : Prop where
  ingested : h'.ingested = h.ingested
  done : h.done ⊆ h'.done
  pending : h'.pendingResults = h.pendingResults
  verdicts : h'.verdictLog = h.verdictLog

private theorem Unsignalled.of_sameTally {h h' : SimulatedPacketHandler} (hs : SameTally h h')
    (hu : Unsignalled h) : Unsignalled h' := by
  refine ⟨by rw [hs.ingested]; exact hu.ingested, fun u st hp hc => ?_, fun v hv hce => ?_⟩
  · obtain ⟨p, hp, hm⟩ := hu.pending u st (hs.pending ▸ hp) hc
    exact ⟨p, hs.done hp, hm⟩
  · obtain ⟨p, hp, hm⟩ := hu.verdicts v (hs.verdicts ▸ hv) hce
    exact ⟨p, hs.done hp, hm⟩

private theorem Unsignalled.updatePendingPacket {h : SimulatedPacketHandler}
    (hu : Unsignalled h) (p : IpPkt) (d : Bool) : Unsignalled (h.updatePendingPacket p d) := by
  have hdone : (h.updatePendingPacket p d).done = h.done ++ [p] := by
    simp [PacketHandlerBase.done, updatePendingPacket_settled]
  have hing : (h.updatePendingPacket p d).ingested = h.ingested :=
    (updatePendingPacket_intake h p d).ingested
  -- the new record signals congestion when the old one did or the fragment is marked
  have hrecord : (h.pendingAfter p d).congestionSignal = true →
      ∃ q ∈ (h.updatePendingPacket p d).done, q.ceMarked = true := by
    intro hc
    rw [hdone]
    cases hmark : p.ceMarked with
    | true => exact ⟨p, by simp, hmark⟩
    | false =>
        cases hold : h.pendingResults p.uid with
        | none => simp [pendingAfter, hold, hmark] at hc
        | some st =>
            obtain ⟨q, hq, hqm⟩ := hu.pending p.uid st hold (by
              simpa [pendingAfter, hold, hmark] using hc)
            exact ⟨q, by simp [hq], hqm⟩
  have hkeep {P : Prop} (hP : P → ∃ q ∈ h.done, q.ceMarked = true) :
      P → ∃ q ∈ (h.updatePendingPacket p d).done, q.ceMarked = true := by
    intro hx
    obtain ⟨q, hq, hqm⟩ := hP hx
    exact ⟨q, by rw [hdone]; simp [hq], hqm⟩
  refine ⟨by rw [hing]; exact hu.ingested, fun u st hp => ?_, fun v hv => ?_⟩
  · by_cases hu' : u = p.uid
    · subst hu'
      simp only [SimulatedPacketHandler.updatePendingPacket] at hp
      split at hp
      · simp at hp
      · simp only [Function.update_self, Option.some.injEq] at hp
        rw [← hp]
        exact hrecord
    · refine hkeep (hu.pending u st ?_)
      simp only [SimulatedPacketHandler.updatePendingPacket] at hp
      split at hp <;> simpa [Function.update_of_ne hu', PacketHandlerBase.verdict,
        PacketHandlerBase.settle] using hp
  · simp only [SimulatedPacketHandler.updatePendingPacket] at hv
    split at hv
    · simp only [PacketHandlerBase.verdict, PacketHandlerBase.settle, List.mem_append,
        List.mem_singleton] at hv
      rcases hv with hv | rfl
      · exact hkeep (hu.verdicts v hv)
      · intro hce
        refine hrecord ?_
        by_contra hcs
        simp only [PendingPacketResult.finalVerdict] at hce
        rw [if_neg hcs] at hce
        split at hce <;> cases hce
    · exact hkeep (hu.verdicts v hv)

private theorem Unsignalled.updateAll {h : SimulatedPacketHandler} (hu : Unsignalled h)
    {d : Bool} (ps : List IpPkt) : Unsignalled (h.updateAll d ps) :=
  updateAll_rule (fun p d hg => hg.updatePendingPacket p d) d ps hu

private theorem releaseLoop_unsignalled (bs : List HarqPkt) (h : SimulatedPacketHandler)
    (r : PacketHandlerBase.ReleaseTotals) (hu : Unsignalled h) :
    Unsignalled (releaseLoop bs h r).1 :=
  releaseLoop_rule (fun p d hg => hg.updatePendingPacket p d) bs r hu

private theorem pushNew_unsignalled {h : SimulatedPacketHandler} (hu : Unsignalled h)
    (t size : ℚ) : Unsignalled (h.pushNew t size) := by
  refine ⟨fun p hp => ?_, hu.pending, hu.verdicts⟩
  simp only [pushNew, PacketHandlerBase.pushIngressPkt, List.mem_append, List.mem_singleton] at hp
  rcases hp with hp | rfl
  · exact hu.ingested p hp
  · rfl

private theorem Unsignalled.ingest {h : SimulatedPacketHandler} (hu : Unsignalled h)
    (t bits : ℚ) : Unsignalled (h.ingest t bits).1 :=
  ingest_rule (P := Unsignalled) (fun t _ _ hg => pushNew_unsignalled hg t _) hu t bits

private theorem sameTally_popIngressPkt {h h' : SimulatedPacketHandler} {p : IpPkt}
    (hpop : PacketHandler.popIngressPkt h = some (p, h')) : SameTally h h' := by
  obtain ⟨rest, -, rfl⟩ := PacketHandler.popIngressPkt_eq_some hpop
  exact ⟨rfl, List.Subset.refl _, rfl, rfl⟩

private theorem sameTally_dropIngressPkt (h : SimulatedPacketHandler) (p : IpPkt) :
    SameTally h (h.dropIngressPkt p) := by
  refine ⟨rfl, ?_, rfl, rfl⟩
  simp [PacketHandlerBase.done, dropIngressPkt, PacketHandlerBase.settle]

/-- Every move keeps it. -/
theorem Unsignalled.move {k : MoveKind} {c c' : Custody SimulatedPacketHandler} (hm : Move c k c')
    (h : Unsignalled c.packetH) : Unsignalled c'.packetH := by
  cases hm with
  | receive e => exact e.elim
  | ingest t bits => exact h.ingest t bits
  | release =>
      have hpast : SameTally (releaseLoop c.packetH.pktList c.packetH {}).1
          (c.packetH.release).1 := ⟨rfl, List.Subset.refl _, rfl, rfl⟩
      exact (releaseLoop_unsignalled _ _ _ h).of_sameTally hpast
  | enter hpop => exact h.of_sameTally (sameTally_popIngressPkt hpop)
  | refuse hpop =>
      exact (h.of_sameTally (sameTally_popIngressPkt hpop)).of_sameTally
        (sameTally_dropIngressPkt _ _)
  | takeDropped => exact h.updateAll _
  | drop => exact h.updateAll _
  | tick | recordError | push | fetch | unstore | store | discard =>
      exact ⟨h.ingested, h.pending, h.verdicts⟩

end SimulatedPacketHandler

/-! ### The theorem -/

/-- The id of the captured packet `info` is that of no other captured packet. -/
theorem eq_of_pktId {l : List CapturedPacketInfo} (hnd : (l.map CapturedPacketInfo.pktId).Nodup)
    {x y : CapturedPacketInfo} (hx : x ∈ l) (hy : y ∈ l) (h : x.pktId = y.pktId) : x = y :=
  List.inj_on_of_nodup_map hnd hx hy h

/-- A fragment's packet was captured, with the codepoint the fragment remembers. -/
private theorem captured_ecn {h : CapturedPacketHandler} (hc : h.Chronicle) {p : IpPkt}
    (hp : p.StemsFrom h.ingested) :
    ∃ info ∈ h.pktCptr.captureLog, info.pktId = p.uid ∧ info.ecn = p.originalEcn := by
  obtain ⟨a, info, b, hlog, hu, -, -, he⟩ := hc.captured hp
  exact ⟨info, by simp [hlog], hu.symm, he.symm⟩

namespace PdcpLayer

/-- What every fragment anywhere, and every packet the AQM dropped, is. -/
structure EcnSound {H Env In : Type} [PacketHandler H Env In] [Keeper H] (s : PdcpLayer H) :
    Prop where
  marked : ∀ p ∈ (s.custody none).all, p.ceMarked = true →
    p.ecn = .ce ∧ (p.originalEcn = .ect0 ∨ p.originalEcn = .ect1)
  dropLog : ∀ p ∈ s.ipBuffer.l4sQueue.dropLog,
    (p.originalEcn = .notEct ∨ p.originalEcn = .ect0) ∧ p.ceMarked = false
  droppedQueue : ∀ p ∈ s.ipBuffer.l4sQueue.droppedQueue,
    (p.originalEcn = .notEct ∨ p.originalEcn = .ect0) ∧ p.ceMarked = false

/-- What that means for captured packets: `ACCEPT_CE` is for packets that came as ECT,
and the AQM drops packets that came as Not-ECT or ECT(0). -/
structure EcnAnswers (s : PdcpLayer CapturedPacketHandler) : Prop where
  acceptCe : ∀ u, (u, .acceptCe) ∈ s.packetH.pktCptr.verdicts →
    ∃ info ∈ s.packetH.pktCptr.captureLog, info.pktId = u ∧ (info.ecn = .ect0 ∨ info.ecn = .ect1)
  aqmDrop : ∀ p ∈ s.ipBuffer.l4sQueue.dropLog, ∃ info ∈ s.packetH.pktCptr.captureLog,
    info.pktId = p.uid ∧ (info.ecn = .notEct ∨ info.ecn = .ect0)
  notEct : (s.packetH.pktCptr.captureLog.map CapturedPacketInfo.pktId).Nodup →
    ∀ info ∈ s.packetH.pktCptr.captureLog, info.ecn = .notEct →
      (info.pktId, .acceptCe) ∉ s.packetH.pktCptr.verdicts
  l4s : (s.packetH.pktCptr.captureLog.map CapturedPacketInfo.pktId).Nodup →
    ∀ info ∈ s.packetH.pktCptr.captureLog, info.ecn = .ect1 ∨ info.ecn = .ce →
      ∀ p ∈ s.ipBuffer.l4sQueue.dropLog, p.uid ≠ info.pktId

theorem ecnSound_of_inv {H Env In : Type} [PacketHandler H Env In] [Keeper H]
    {s : PdcpLayer H} (h : EcnInv (s.custody none)) : s.EcnSound :=
  ⟨fun p hp => (h.all p hp).marked, h.dropLog, fun p hp => h.dropLog p (h.dropped hp)⟩

/-- An entry answered with `ACCEPT_CE` is marked, and is one of all packets. -/
private theorem marked_of_acceptCe {s : PdcpLayer CapturedPacketHandler}
    (hc : s.packetH.Chronicle) {u : UInt32}
    (h : (u, .acceptCe) ∈ s.packetH.pktCptr.verdicts) :
    ∃ p ∈ (s.custody none).all, p.uid = u ∧ p.ceMarked = true := by
  rw [hc.answers] at h
  obtain ⟨e, he, heq⟩ := List.mem_map.mp h
  simp only [Settled.answer, IpPkt.action, Prod.mk.injEq] at heq
  refine ⟨e.pkt, List.mem_append_right _ (List.mem_append_right _ (List.mem_map_of_mem he)),
    heq.1, ?_⟩
  by_contra hm
  have hact := heq.2
  rw [if_neg hm] at hact
  split at hact <;> cases hact

private theorem ecnAnswers_of_inv {s : PdcpLayer CapturedPacketHandler}
    (h : EcnInv (s.custody none)) (hs : Stems (s.custody none)) (hc : s.packetH.Chronicle) :
    s.EcnAnswers := by
  have hacc : ∀ u, (u, .acceptCe) ∈ s.packetH.pktCptr.verdicts →
      ∃ info ∈ s.packetH.pktCptr.captureLog,
        info.pktId = u ∧ (info.ecn = .ect0 ∨ info.ecn = .ect1) := by
    intro u hu
    obtain ⟨p, hp, rfl, hm⟩ := marked_of_acceptCe hc hu
    obtain ⟨info, hi, hid, hecn⟩ := captured_ecn hc (hs.all p hp)
    exact ⟨info, hi, hid, hecn ▸ ((h.all p hp).marked hm).2⟩
  have hdrop : ∀ p ∈ s.ipBuffer.l4sQueue.dropLog, ∃ info ∈ s.packetH.pktCptr.captureLog,
      info.pktId = p.uid ∧ (info.ecn = .notEct ∨ info.ecn = .ect0) := by
    intro p hp
    obtain ⟨info, hi, hid, hecn⟩ := captured_ecn hc (hs.dropLog p hp)
    exact ⟨info, hi, hid, hecn ▸ (h.dropLog p hp).1⟩
  refine ⟨hacc, hdrop, fun hnd info hi hecn hu => ?_, fun hnd info hi hecn p hp hu => ?_⟩
  · obtain ⟨info', hi', hid, hect⟩ := hacc _ hu
    rw [eq_of_pktId hnd hi' hi hid, hecn] at hect
    simp at hect
  · obtain ⟨info', hi', hid, hect⟩ := hdrop p hp
    rw [eq_of_pktId hnd hi' hi (hid.trans hu)] at hect
    rcases hecn with hecn | hecn <;> simp [hecn] at hect

/-- **ECN safety**, in every state of every run: over captured traffic with any mix of
codepoints, and over simulated traffic, which has none and so is never marked. -/
theorem pdcp_ecn_safe (cfg : PacketHandlerConfig) (verbosity : ℤ) (seeds : Seeds) (budgetS : ℚ) :
    (∀ (fuel : ℕ) (es : List (Event NfqPacketMetadata Draws)) (s : PdcpLayer CapturedPacketHandler),
      (captured cfg verbosity seeds budgetS).exec fuel es = some s →
        s.EcnSound ∧ s.EcnAnswers) ∧
    ∀ (fuel : ℕ) (es : List (Event Empty ℚ)) (s : PdcpLayer SimulatedPacketHandler),
      (simulated cfg verbosity seeds budgetS).exec fuel es = some s →
        s.EcnSound ∧ (∀ p ∈ (s.custody none).all, p.ceMarked = false) ∧
          ∀ v ∈ s.packetH.verdictLog, v.2 ≠ .acceptCe := by
  refine ⟨fun fuel es s hrun => ?_, fun fuel es s hrun => ?_⟩
  · have hinv := exec_inv (I := EcnInv) EcnInv.move
      ⟨by rintro p ⟨⟩, by rintro p ⟨⟩, by rintro p ⟨⟩⟩ hrun
    have hstems := exec_inv (I := Stems) Stems.move ⟨by rintro p ⟨⟩, by rintro p ⟨⟩⟩ hrun
    have hchron := exec_inv (I := fun c => c.packetH.Chronicle) Move.chronicle
      (chronicle_make _ _ _ _) hrun
    exact ⟨ecnSound_of_inv hinv, ecnAnswers_of_inv hinv hstems hchron⟩
  · have hinv := exec_inv (I := EcnInv) EcnInv.move
      ⟨by rintro p ⟨⟩, by rintro p ⟨⟩, by rintro p ⟨⟩⟩ hrun
    have hstems := exec_inv (I := Stems) Stems.move ⟨by rintro p ⟨⟩, by rintro p ⟨⟩⟩ hrun
    have huns := exec_inv (I := fun c => c.packetH.Unsignalled)
      SimulatedPacketHandler.Unsignalled.move
      ⟨by rintro p ⟨⟩, by rintro u st ⟨⟩, by rintro v ⟨⟩⟩ hrun
    have hun : ∀ p ∈ (s.custody none).all, p.ceMarked = false := by
      intro p hp
      by_contra hm
      obtain ⟨q, hq, -, -, -, he, -⟩ := hstems.all p hp
      have hect := ((hinv.all p hp).marked (by simpa using hm)).2
      rw [← he, huns.ingested q hq] at hect
      simp at hect
    refine ⟨ecnSound_of_inv hinv, hun, fun v hv hce => ?_⟩
    obtain ⟨p, hp, hm⟩ := huns.verdicts v hv hce
    simp [hun p (List.mem_append_right _ (List.mem_append_right _ hp))] at hm

/-- A packet that came as ECT(1), is marked on its way, and is accepted with CE. -/
theorem pdcp_ecn_safe_marked :
    ∃ s : PdcpLayer CapturedPacketHandler,
      (captured { l4sC := { enabled := true } } 0 {} (35 / 100)).exec 5
        [.env ⟨1000, 7, .ect1, []⟩, .step (1 / 1000) fun _ => 0, .handlePkt 9000 5 0 0,
          .release] = some s ∧
      s.packetH.pktCptr.verdicts = [(7, .acceptCe)] ∧ s.EcnSound ∧ s.EcnAnswers := by
  refine Runs.exists_of_view (fun s => s.packetH.pktCptr.verdicts) (x := [(7, .acceptCe)])
    (by decide +kernel) fun s hs hview => ?_
  exact ⟨hview, (pdcp_ecn_safe { l4sC := { enabled := true } } 0 {} (35 / 100)).1 5 _ s hs⟩

end PdcpLayer

end NetworkEmulator
