/-
The calls the PDCP layer makes on its handler, on record.

`Observed H` is a handler `H` that notes each call that hands it packets or asks it to
release some, with the state it found.  The layer cannot tell the difference: taking the
record away, which is `erase`, makes of a run over an observed handler the run over the
handler itself.  So what is said of the record is said of the layer.
-/
import NetworkEmulator.Proofs.Custody
import NetworkEmulator.Proofs.LayerRules

namespace NetworkEmulator

/-- A call that hands packets to a handler, or asks it to release some. -/
inductive HandlerCall where
  | dropIngressPkt (p : IpPkt)
  | push (b : HarqPkt)
  | drop (b : HarqPkt)
  | release

/-- The handler after a call. -/
def HandlerCall.run {H Env In : Type} [PacketHandler H Env In] (h : H) : HandlerCall → H
  | .dropIngressPkt p => PacketHandler.dropIngressPkt h p
  | .push b => PacketHandler.push h b
  | .drop b => PacketHandler.drop h b
  | .release => (PacketHandler.release h).1

/-- A handler with the calls made on it so far, each with the handler it found. -/
structure Observed (H : Type) where
  handler : H
  calls : List (H × HandlerCall) := []

namespace Observed

variable {H Env In : Type} [PacketHandler H Env In]

/-- One call. -/
def call (o : Observed H) (c : HandlerCall) : Observed H :=
  ⟨c.run o.handler, o.calls ++ [(o.handler, c)]⟩

instance : PacketHandler (Observed H) Env In where
  base o := PacketHandler.base o.handler
  setBase o b := { o with handler := PacketHandler.setBase o.handler b }
  ingest o t i :=
    ({ o with handler := (PacketHandler.ingest o.handler t i).1 },
      (PacketHandler.ingest o.handler t i).2)
  dropIngressPkt o p := o.call (.dropIngressPkt p)
  push o b := o.call (.push b)
  drop o b := o.call (.drop b)
  release o := (o.call .release, (PacketHandler.release o.handler).2)
  receive o e := { o with handler := PacketHandler.receive o.handler e }
  base_setBase o b := PacketHandler.base_setBase o.handler b
  ingest_fresh o t i := PacketHandler.ingest_fresh o.handler t i
  intake_dropIngressPkt o p := PacketHandler.intake_dropIngressPkt o.handler p
  intake_push o b := PacketHandler.intake_push o.handler b
  intake_drop o b := PacketHandler.intake_drop o.handler b
  intake_release o := PacketHandler.intake_release o.handler
  intake_receive o e := PacketHandler.intake_receive o.handler e

theorem popIngressPkt_eq (o : Observed H) : PacketHandler.popIngressPkt o
    = (PacketHandler.popIngressPkt o.handler).map fun (p, h) => (p, { o with handler := h }) := by
  have hbase : PacketHandler.base o = PacketHandler.base o.handler := rfl
  unfold PacketHandler.popIngressPkt
  rw [hbase]
  cases (PacketHandler.base o.handler).ingressPkts <;> rfl

/-- Popping an ingress packet is not on record. -/
theorem popIngressPkt_some {o o' : Observed H} {p : IpPkt}
    (h : PacketHandler.popIngressPkt o = some (p, o')) :
    PacketHandler.popIngressPkt o.handler = some (p, o'.handler) ∧ o'.calls = o.calls := by
  rw [popIngressPkt_eq] at h
  obtain ⟨⟨p', h'⟩, hpop, heq⟩ := Option.map_eq_some_iff.mp h
  obtain ⟨rfl, rfl⟩ := Prod.mk.inj heq
  exact ⟨hpop, rfl⟩

end Observed

/-! ### What is on record -/

/-- The packet a call refuses. -/
def HandlerCall.refused : HandlerCall → List IpPkt
  | .dropIngressPkt p => [p]
  | .push _ | .drop _ | .release => []

/-- The block a call drops. -/
def HandlerCall.dropped : HandlerCall → List HarqPkt
  | .drop b => [b]
  | .dropIngressPkt _ | .push _ | .release => []

/-- The block a call pushes to the release side. -/
def HandlerCall.pushed : HandlerCall → List HarqPkt
  | .push b => [b]
  | .dropIngressPkt _ | .drop _ | .release => []

namespace Observed

variable {H : Type}

/-- The packets refused at admission. -/
def refused (o : Observed H) : List IpPkt := o.calls.flatMap fun x => x.2.refused

/-- The blocks dropped, by the AQM or because they expired. -/
def dropped (o : Observed H) : List HarqPkt := o.calls.flatMap fun x => x.2.dropped

/-- The blocks pushed to the release side. -/
def pushed (o : Observed H) : List HarqPkt := o.calls.flatMap fun x => x.2.pushed

variable {Env In : Type} [PacketHandler H Env In]

theorem refused_call (o : Observed H) (c : HandlerCall) :
    (o.call c).refused = o.refused ++ c.refused := by
  simp [refused, call]

theorem dropped_call (o : Observed H) (c : HandlerCall) :
    (o.call c).dropped = o.dropped ++ c.dropped := by
  simp [dropped, call]

theorem pushed_call (o : Observed H) (c : HandlerCall) :
    (o.call c).pushed = o.pushed ++ c.pushed := by
  simp [pushed, call]

end Observed

/-! ### Erasing the record -/

/-- Custody without the record. -/
def Custody.erase {H : Type} (c : Custody (Observed H)) : Custody H :=
  ⟨c.packetH.handler, c.shelf, c.harq, c.inHand⟩

/-- A move is a move without the record. -/
theorem Move.erase {H Env In : Type} [PacketHandler H Env In] {k : MoveKind}
    {c c' : Custody (Observed H)} (hm : Move c k c') : Move c.erase k c'.erase := by
  cases hm with
  | receive e => exact .receive c.erase e
  | tick t => exact .tick c.erase t
  | recordError x => exact .recordError c.erase x
  | ingest t i => exact .ingest c.erase t i
  | enter hpop hwait hdrop hlog =>
      exact .enter c.erase (Observed.popIngressPkt_some hpop).1 hwait hdrop hlog
  | refuse hpop => exact .refuse c.erase (Observed.popIngressPkt_some hpop).1
  | fetch hnone hy => exact .fetch c.erase hnone hy
  | takeDropped hdrop hwait hlog hb => exact .takeDropped c.erase hdrop hwait hlog hb
  | unstore hnone hperm => exact .unstore c.erase hnone hperm
  | store hsome hb => exact .store c.erase hsome hb
  | drop hsome => exact .drop c.erase hsome
  | push hsome => exact .push c.erase hsome
  | discard hsome hzero => exact .discard c.erase hsome hzero
  | release => exact .release c.erase

namespace PdcpLayer

variable {H Env In : Type} [PacketHandler H Env In]

/-- The layer without the record. -/
def erase (s : PdcpLayer (Observed H)) : PdcpLayer H :=
  { ipBuffer := s.ipBuffer
    harqBuffer := s.harqBuffer
    packetH := s.packetH.handler
    currentId := s.currentId
    bhD := s.bhD
    bhDVar := s.bhDVar
    currentT := s.currentT
    pktDelayBudgetS := s.pktDelayBudgetS
    expiredLog := s.expiredLog }

/-- A layer with a record that is still empty. -/
def observe (s : PdcpLayer H) : PdcpLayer (Observed H) :=
  { ipBuffer := s.ipBuffer
    harqBuffer := s.harqBuffer
    packetH := { handler := s.packetH }
    currentId := s.currentId
    bhD := s.bhD
    bhDVar := s.bhDVar
    currentT := s.currentT
    pktDelayBudgetS := s.pktDelayBudgetS
    expiredLog := s.expiredLog }

omit [PacketHandler H Env In] in
theorem erase_observe (s : PdcpLayer H) : s.observe.erase = s := rfl

omit [PacketHandler H Env In] in
private theorem erase_ipBuffer (s : PdcpLayer (Observed H)) : s.erase.ipBuffer = s.ipBuffer := rfl

omit [PacketHandler H Env In] in
private theorem erase_harqBuffer (s : PdcpLayer (Observed H)) :
    s.erase.harqBuffer = s.harqBuffer := rfl

private theorem erase_offer (s : PdcpLayer (Observed H)) (p : IpPkt) :
    (s.offer p).erase = s.erase.offer p := by
  unfold offer
  rw [erase_ipBuffer]
  rcases s.ipBuffer.addPkt p with ⟨_ | _, b⟩ <;> rfl

private theorem erase_drainIngressLoop (n : ℕ) : ∀ s : PdcpLayer (Observed H),
    (s.drainIngressLoop n).erase = s.erase.drainIngressLoop n := by
  induction n with
  | zero => intro s; rfl
  | succ n ih =>
      intro s
      simp only [drainIngressLoop]
      have hhandler : s.erase.packetH = s.packetH.handler := rfl
      rw [Observed.popIngressPkt_eq, hhandler]
      rcases PacketHandler.popIngressPkt s.packetH.handler with _ | ⟨p, h⟩
      · rfl
      · simp only [Option.map_some]
        rw [ih, erase_offer]
        rfl

private theorem erase_drainAqmLoop (n : ℕ) : ∀ s : PdcpLayer (Observed H),
    (s.drainAqmLoop n).erase = s.erase.drainAqmLoop n := by
  induction n with
  | zero => intro s; rfl
  | succ n ih =>
      intro s
      simp only [drainAqmLoop]
      rw [erase_ipBuffer]
      rcases s.ipBuffer.popAqmDroppedPkt {} with _ | ⟨b, dropped⟩
      · rfl
      · exact ih _

private theorem erase_cleanupIpLoop (n : ℕ) : ∀ s : PdcpLayer (Observed H),
    (s.cleanupIpLoop n).erase = s.erase.cleanupIpLoop n := by
  induction n with
  | zero => intro s; rfl
  | succ n ih =>
      intro s
      simp only [cleanupIpLoop]
      by_cases hhas : s.ipBuffer.hasPkts = true
      · rw [if_pos hhas, if_pos (show s.erase.ipBuffer.hasPkts = true from hhas)]
        by_cases hexp : s.isExpired s.ipBuffer.getOldestTimestamp = true
        · rw [if_pos hexp, if_pos
            (show s.erase.isExpired s.erase.ipBuffer.getOldestTimestamp = true from hexp)]
          have hblock : s.erase.newBlock s.ipBuffer.getOldestTimestamp 0 0 =
              s.newBlock s.ipBuffer.getOldestTimestamp 0 0 := rfl
          rw [erase_ipBuffer, hblock]
          rcases s.ipBuffer.popOldestPkt (s.newBlock s.ipBuffer.getOldestTimestamp 0 0) with
            _ | ⟨buf, b⟩
          · rfl
          · exact ih _
        · rw [if_neg hexp, if_neg
            (show ¬ s.erase.isExpired s.erase.ipBuffer.getOldestTimestamp = true from hexp)]
      · rw [if_neg hhas, if_neg (show ¬ s.erase.ipBuffer.hasPkts = true from hhas)]

private theorem erase_cleanupHarqLoop (n : ℕ) : ∀ s : PdcpLayer (Observed H),
    (s.cleanupHarqLoop n).erase = s.erase.cleanupHarqLoop n := by
  induction n with
  | zero => intro s; rfl
  | succ n ih =>
      intro s
      simp only [cleanupHarqLoop]
      have hbound : s.erase.oldestAllowedIpT = s.oldestAllowedIpT := rfl
      rw [erase_harqBuffer, hbound]
      rcases s.harqBuffer.popPktOlderThan s.oldestAllowedIpT with _ | ⟨b, hq⟩
      · rfl
      · exact ih _

private theorem erase_drainAqm (s : PdcpLayer (Observed H)) :
    s.drainAqm.erase = s.erase.drainAqm := erase_drainAqmLoop _ s

private theorem erase_drainIngressPkts (s : PdcpLayer (Observed H)) :
    s.drainIngressPkts.erase = s.erase.drainIngressPkts := by
  unfold drainIngressPkts
  rw [erase_drainAqm, erase_drainIngressLoop]
  rfl

theorem erase_step (s : PdcpLayer (Observed H)) (t : ℚ) (i : In) :
    (s.step t i).erase = s.erase.step t i := by
  have hip (s : PdcpLayer (Observed H)) :
      s.cleanupExpiredIpPkts.erase = s.erase.cleanupExpiredIpPkts := erase_cleanupIpLoop _ s
  have hharq (s : PdcpLayer (Observed H)) :
      s.cleanupExpiredHarqPkts.erase = s.erase.cleanupExpiredHarqPkts := erase_cleanupHarqLoop _ s
  have hadvance : (s.advance t i).erase = s.erase.advance t i := rfl
  rw [step, step, hharq, hip, erase_drainIngressPkts, hadvance]

/-- The answer of `handle_pkt`, and the layer without the record. -/
def eraseSent (r : ℚ × PdcpLayer (Observed H)) : ℚ × PdcpLayer H := (r.1, r.2.erase)

private theorem erase_handleLoop (bits : ℚ) (mcs : ℤ) (sinr distance : ℚ) (n : ℕ) :
    ∀ s : PdcpLayer (Observed H), (handleLoop bits mcs sinr distance n s).map eraseSent
      = handleLoop bits mcs sinr distance n s.erase := by
  induction n with
  | zero => intro s; rfl
  | succ n ih =>
      intro s
      have hfetch : (s.erase.fetch bits mcs (truncToInt distance))
          = ((s.fetch bits mcs (truncToInt distance)).1,
            (s.fetch bits mcs (truncToInt distance)).2.erase) := by
        unfold fetch drainAqm
        simp only [erase_drainAqmLoop]
        rfl
      simp only [handleLoop, hfetch]
      by_cases hgo : 0 < bits ∧ s.hasPkts = true
      · rw [if_pos hgo, if_pos (show 0 < bits ∧ s.erase.hasPkts = true from hgo)]
        generalize (s.fetch bits mcs (truncToInt distance)).1 = b
        generalize (s.fetch bits mcs (truncToInt distance)).2 = s₁
        by_cases hzero : b.bits ≤ 0
        · rw [if_pos hzero, if_pos hzero]
          exact ih s₁
        · rw [if_neg hzero, if_neg hzero]
          by_cases hexp : s₁.isExpired b.ipT = true
          · rw [if_pos hexp, if_pos (show s₁.erase.isExpired b.ipT = true from hexp)]
            exact ih _
          · rw [if_neg hexp, if_neg (show ¬ s₁.erase.isExpired b.ipT = true from hexp)]
            by_cases hrtx : s₁.harqBuffer.getRtx mcs sinr 0 = true
            · rw [if_pos hrtx, if_pos (show s₁.erase.harqBuffer.getRtx mcs sinr 0 = true from hrtx)]
              rfl
            · rw [if_neg hrtx,
                if_neg (show ¬ s₁.erase.harqBuffer.getRtx mcs sinr 0 = true from hrtx)]
              rfl
      · rw [if_neg hgo, if_neg (show ¬ (0 < bits ∧ s.erase.hasPkts = true) from hgo)]
        rfl

theorem erase_handlePkt (fuel : ℕ) (s : PdcpLayer (Observed H)) (bits : ℚ) (mcs : ℤ)
    (sinr distance : ℚ) : (s.handlePkt fuel bits mcs sinr distance).map eraseSent
      = s.erase.handlePkt fuel bits mcs sinr distance := by
  unfold handlePkt
  by_cases hready : s.harqBuffer.isPktReady = true
  · rw [if_pos hready, if_pos (show s.erase.harqBuffer.isPktReady = true from hready)]
    rw [erase_harqBuffer]
    rcases s.harqBuffer.getPkt with _ | ⟨b, hq⟩
    · rfl
    · simp only
      by_cases hrtx : hq.getRtx b.mcsI sinr b.nTx = true
      · rw [if_pos hrtx, if_pos hrtx]
        by_cases hn : b.nTx < 4
        · rw [if_pos hn, if_pos hn]
          rfl
        · rw [if_neg hn, if_neg hn]
          rfl
      · rw [if_neg hrtx, if_neg hrtx]
        rfl
  · rw [if_neg hready, if_neg (show ¬ s.erase.harqBuffer.isPktReady = true from hready)]
    by_cases hhas : s.hasPkts = true
    · rw [if_pos hhas, if_pos (show s.erase.hasPkts = true from hhas)]
      exact erase_handleLoop bits mcs sinr distance fuel s
    · rw [if_neg hhas, if_neg (show ¬ s.erase.hasPkts = true from hhas)]
      rfl

/-- **The record makes no difference to an event**, -/
theorem erase_apply (fuel : ℕ) (s : PdcpLayer (Observed H)) (e : Event Env In) :
    (s.apply fuel e).map erase = s.erase.apply fuel e := by
  cases e with
  | env e => rfl
  | step t i => exact congrArg some (erase_step s t i)
  | handlePkt bits mcs sinr distance =>
      simp only [apply, ← erase_handlePkt, Option.map_map]
      rfl
  | release => rfl

/-- **nor to a run.** -/
theorem erase_exec (fuel : ℕ) (es : List (Event Env In)) : ∀ s : PdcpLayer (Observed H),
    (s.exec fuel es).map erase = s.erase.exec fuel es := by
  induction es with
  | nil => intro s; rfl
  | cons e es ih =>
      intro s
      show ((s.apply fuel e).bind fun s => s.exec fuel es).map erase
        = (s.erase.apply fuel e).bind fun s => s.exec fuel es
      rw [← erase_apply]
      rcases s.apply fuel e with _ | s₁
      · rfl
      · exact ih s₁

/-- A run over an observed layer is one over the layer. -/
theorem exec_of_observed {fuel : ℕ} {es : List (Event Env In)} {s : PdcpLayer H}
    {s' : PdcpLayer (Observed H)} (h : s.observe.exec fuel es = some s') :
    s.exec fuel es = some s'.erase := by
  have herase := erase_exec fuel es s.observe
  rwa [h, erase_observe, eq_comm] at herase

end PdcpLayer

end NetworkEmulator
