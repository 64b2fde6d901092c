/-
The rules of the PDCP layer's loops.

`step` and `handle_pkt` are loops around a few things the layer does, each after some
test.  `StepRules K` and `HandleRules grant K` list these, with what has been tested;
`K o s` is whatever is to be shown of a layer `s` that has the block `o` in hand.  What
each of them keeps, `step_rule` and `handlePkt_rule` carry through the loops, which are
unfolded here once.

`handle_pkt` ends with a block sent, a block stored for another transmission, or
neither, and `Ends` keeps these apart, because its answer depends on it.
-/
import NetworkEmulator.Model.PdcpLayer

namespace NetworkEmulator

namespace PdcpLayer

variable {H Env In : Type} [PacketHandler H Env In]

/-- The layer, with a packet the AQM dropped handed to the handler. -/
def returnDropped (s : PdcpLayer H) (buffer : IpBuffer) (dropped : HarqPkt) : PdcpLayer H :=
  { s with
    ipBuffer := buffer
    packetH := PacketHandler.drop (PacketHandler.recordError s.packetH dropped.bits) dropped }

omit [PacketHandler H Env In] in
/-- `fetch` before it drains: the block `get_pkts` fills, and the layer without it. -/
def fill (s : PdcpLayer H) (bits : ℚ) (mcs distance : ℤ) : HarqPkt × PdcpLayer H :=
  ((s.ipBuffer.getPkts bits (s.newBlock s.ipBuffer.getOldestTimestamp mcs distance)).2,
    { s with
      currentId := s.currentId + 1
      ipBuffer :=
        (s.ipBuffer.getPkts bits (s.newBlock s.ipBuffer.getOldestTimestamp mcs distance)).1 })

/-- `offer` hands the packet to the buffer, and back to the handler when it is refused. -/
theorem offer_cases (s : PdcpLayer H) (p : IpPkt) :
    ((s.ipBuffer.addPkt p).1 = true ∧ s.offer p = { s with ipBuffer := (s.ipBuffer.addPkt p).2 }) ∨
    ((s.ipBuffer.addPkt p).1 = false ∧ s.offer p = { s with
      ipBuffer := (s.ipBuffer.addPkt p).2
      packetH := PacketHandler.dropIngressPkt s.packetH p }) := by
  unfold offer
  rcases s.ipBuffer.addPkt p with ⟨_ | _, b⟩
  · exact Or.inr ⟨rfl, rfl⟩
  · exact Or.inl ⟨rfl, rfl⟩

/-- What both loops do. -/
structure DropRules (K : Option HarqPkt → PdcpLayer H → Prop) : Prop where
  /-- A packet the AQM dropped goes to the handler. -/
  drain : ∀ {o s buffer dropped}, K o s →
    s.ipBuffer.popAqmDroppedPkt {} = some (buffer, dropped) → K o (s.returnDropped buffer dropped)
  /-- The block in hand is dropped. -/
  drop : ∀ {s b}, K (some b) s → K none (s.dropHarqPkt b)

/-- What `step` does to clean up. -/
structure CleanupRules (K : Option HarqPkt → PdcpLayer H → Prop) : Prop extends DropRules K where
  /-- An id is used up. -/
  count : ∀ {s}, K none s → K none { s with currentId := s.currentId + 1 }
  /-- The oldest packet of the buffer has expired. -/
  expire : ∀ {s buffer b}, K none s → s.isExpired s.ipBuffer.getOldestTimestamp = true →
    s.ipBuffer.popOldestPkt (s.newBlock s.ipBuffer.getOldestTimestamp 0 0) = some (buffer, b) →
      K (some b) { s with currentId := s.currentId + 1, ipBuffer := buffer }
  /-- So has a block of the HARQ buffer. -/
  unstore : ∀ {s b harq}, K none s →
    s.harqBuffer.popPktOlderThan s.oldestAllowedIpT = some (b, harq) →
      K (some b) { s with harqBuffer := harq }

/-- What `step` does after `advance`. -/
structure StepRules (K : Option HarqPkt → PdcpLayer H → Prop) : Prop extends CleanupRules K where
  /-- A packet goes from the ingress queue to the buffer, or is refused. -/
  offer : ∀ {s p h}, K none s → PacketHandler.popIngressPkt s.packetH = some (p, h) →
    K none ({ s with packetH := h }.offer p)

/-- What `handle_pkt` does before it ends. -/
structure HandleRules (grant : ℚ) (K : Option HarqPkt → PdcpLayer H → Prop) : Prop
    extends DropRules K where
  /-- The buffer fills a block, and is drained of what the AQM dropped on the way. -/
  fetch : ∀ {s} (mcs distance : ℤ), K none s → 0 < grant → s.hasPkts = true →
    K (some (s.fetch grant mcs distance).1) (s.fetch grant mcs distance).2
  /-- A block that was filled with no bits is forgotten. -/
  forget : ∀ {s : PdcpLayer H} {mcs distance : ℤ},
    K (some (s.fetch grant mcs distance).1) (s.fetch grant mcs distance).2 →
    (s.fetch grant mcs distance).1.bits ≤ 0 → K none (s.fetch grant mcs distance).2
  /-- A block that has expired is dropped, and noted. -/
  expired : ∀ {s b}, K (some b) s → 0 < b.bits → s.isExpired b.ipT = true →
    K none { s.dropHarqPkt b with expiredLog := s.expiredLog ++ [(s.oldestAllowedIpT, b)] }
  /-- A block of the HARQ buffer is due. -/
  ready : ∀ {s b harq}, K none s → s.harqBuffer.getPkt = some (b, harq) →
    K (some b) { s with harqBuffer := harq }

/-- How `handle_pkt` ends when it ends with a block, and its answer. -/
inductive Ends (s : PdcpLayer H) (b : HarqPkt) : ℚ → PdcpLayer H → Prop
  | send : Ends s b b.bits { s with packetH := PacketHandler.push s.packetH b }
  | store (mcs : ℤ) (sinr : ℚ) (h : s.harqBuffer.getRtx mcs sinr 0 = true) :
      Ends s b 0 { s with harqBuffer := s.harqBuffer.addPkts b }
  | requeue (distance sinr : ℚ) (h : s.harqBuffer.getRtx b.mcsI sinr b.nTx = true) :
      Ends s b 0 { s with harqBuffer := s.harqBuffer.queue b distance }

variable {K : Option HarqPkt → PdcpLayer H → Prop}

/-- Two properties that `handle_pkt` keeps, it keeps together. -/
theorem HandleRules.and {grant : ℚ} {J : Option HarqPkt → PdcpLayer H → Prop}
    (hK : HandleRules grant K) (hJ : HandleRules grant J) :
    HandleRules grant fun o s => K o s ∧ J o s where
  drain h hpop := ⟨hK.drain h.1 hpop, hJ.drain h.2 hpop⟩
  drop h := ⟨hK.drop h.1, hJ.drop h.2⟩
  fetch mcs distance h hgrant hhas :=
    ⟨hK.fetch mcs distance h.1 hgrant hhas, hJ.fetch mcs distance h.2 hgrant hhas⟩
  forget h hzero := ⟨hK.forget h.1 hzero, hJ.forget h.2 hzero⟩
  expired h hpos hexpired := ⟨hK.expired h.1 hpos hexpired, hJ.expired h.2 hpos hexpired⟩
  ready h hget := ⟨hK.ready h.1 hget, hJ.ready h.2 hget⟩

/-! ### The loops of `step` -/

theorem DropRules.drainAqmLoop (hK : DropRules K) {o : Option HarqPkt} (n : ℕ) :
    ∀ {s : PdcpLayer H}, K o s → K o (s.drainAqmLoop n) := by
  induction n with
  | zero => intro s h; exact h
  | succ n ih =>
      intro s h
      simp only [PdcpLayer.drainAqmLoop]
      split
      · exact h
      · rename_i buffer dropped hpop
        exact ih (hK.drain h hpop)

theorem DropRules.drainAqm (hK : DropRules K) {o : Option HarqPkt} {s : PdcpLayer H}
    (h : K o s) : K o s.drainAqm := hK.drainAqmLoop _ h

/-- What holds once the block is filled, `fetch` keeps. -/
theorem DropRules.fetch (hK : DropRules K) {s : PdcpLayer H} {bits : ℚ} {mcs distance : ℤ}
    (h : K (some (s.fill bits mcs distance).1) (s.fill bits mcs distance).2) :
    K (some (s.fetch bits mcs distance).1) (s.fetch bits mcs distance).2 := hK.drainAqm h

theorem StepRules.drainIngressLoop (hK : StepRules K) (n : ℕ) :
    ∀ {s : PdcpLayer H}, K none s → K none (s.drainIngressLoop n) := by
  induction n with
  | zero => intro s h; exact h
  | succ n ih =>
      intro s h
      simp only [PdcpLayer.drainIngressLoop]
      split
      · exact h
      · rename_i p h' hpop
        exact ih (hK.offer h hpop)

theorem CleanupRules.cleanupIpLoop (hK : CleanupRules K) (n : ℕ) :
    ∀ {s : PdcpLayer H}, K none s → K none (s.cleanupIpLoop n) := by
  induction n with
  | zero => intro s h; exact h
  | succ n ih =>
      intro s h
      simp only [PdcpLayer.cleanupIpLoop]
      split
      · split
        · rename_i hexpired
          split
          · exact hK.count h
          · rename_i buffer b hpop
            exact ih (hK.drop (hK.expire h hexpired hpop))
        · exact h
      · exact h

theorem CleanupRules.cleanupHarqLoop (hK : CleanupRules K) (n : ℕ) :
    ∀ {s : PdcpLayer H}, K none s → K none (s.cleanupHarqLoop n) := by
  induction n with
  | zero => intro s h; exact h
  | succ n ih =>
      intro s h
      simp only [PdcpLayer.cleanupHarqLoop]
      split
      · exact h
      · rename_i b harq hpop
        exact ih (hK.drop (hK.unstore h hpop))

/-- What holds when the ingress queue has been drained, the rest of `step` keeps. -/
theorem CleanupRules.cleanup (hK : CleanupRules K) {s : PdcpLayer H} (h : K none s) :
    K none s.drainAqm.cleanupExpiredIpPkts.cleanupExpiredHarqPkts :=
  hK.cleanupHarqLoop _ (hK.cleanupIpLoop _ (hK.drainAqm h))

/-- **What `step` keeps once it has advanced the clock.** -/
theorem step_rule (hK : StepRules K) {s : PdcpLayer H} {t : ℚ} {i : In}
    (h : K none (s.advance t i)) : K none (s.step t i) :=
  hK.cleanup (hK.drainIngressLoop _ h)

/-! ### The loop of `handle_pkt` -/

theorem HandleRules.handleLoop {grant : ℚ} (hK : HandleRules grant K) {mcs : ℤ}
    {sinr distance : ℚ} (n : ℕ) : ∀ {s s' : PdcpLayer H} {sent : ℚ}, K none s →
      PdcpLayer.handleLoop grant mcs sinr distance n s = some (sent, s') →
        (sent = 0 ∧ K none s') ∨ ∃ b s₁, K (some b) s₁ ∧ 0 < b.bits ∧ Ends s₁ b sent s' := by
  induction n with
  | zero => intro s s' sent _ hrun; simp [PdcpLayer.handleLoop] at hrun
  | succ n ih =>
      intro s s' sent h hrun
      simp only [PdcpLayer.handleLoop] at hrun
      split at hrun
      · rename_i hgo
        have hfetch := hK.fetch mcs (truncToInt distance) h hgo.1 hgo.2
        have hforget := hK.forget hfetch
        generalize (s.fetch grant mcs (truncToInt distance)).1 = b at hrun hfetch hforget
        generalize (s.fetch grant mcs (truncToInt distance)).2 = s₁ at hrun hfetch hforget
        split at hrun
        · rename_i hzero
          exact ih (hforget hzero) hrun
        · rename_i hpos
          split at hrun
          · rename_i hexpired
            exact ih (hK.expired hfetch (not_le.mp hpos) hexpired) hrun
          · split at hrun
            · rename_i hrtx
              obtain ⟨rfl, rfl⟩ := Prod.mk.inj (Option.some.inj hrun)
              exact Or.inr ⟨b, s₁, hfetch, not_le.mp hpos, .store mcs sinr hrtx⟩
            · obtain ⟨rfl, rfl⟩ := Prod.mk.inj (Option.some.inj hrun)
              exact Or.inr ⟨b, s₁, hfetch, not_le.mp hpos, .send⟩
      · obtain ⟨rfl, rfl⟩ := Prod.mk.inj (Option.some.inj hrun)
        exact Or.inl ⟨rfl, h⟩

/-- **What `handle_pkt` keeps until it ends, and how it ends.**  A block that was just
filled has bits. -/
theorem handlePkt_rule {grant : ℚ} (hK : HandleRules grant K) {fuel : ℕ} {s s' : PdcpLayer H}
    {mcs : ℤ} {sinr distance sent : ℚ} (h : K none s)
    (hrun : s.handlePkt fuel grant mcs sinr distance = some (sent, s')) :
    (sent = 0 ∧ K none s') ∨ ∃ b s₁, K (some b) s₁ ∧
      (s.harqBuffer.isPktReady = false → 0 < b.bits) ∧ Ends s₁ b sent s' := by
  unfold handlePkt at hrun
  split at hrun
  · rename_i hstored
    have hno (b : HarqPkt) : s.harqBuffer.isPktReady = false → 0 < b.bits := fun hnot =>
      absurd (hstored.symm.trans hnot) (by simp)
    split at hrun
    · cases hrun
    · rename_i b harq hget
      have hready := hK.ready h hget
      simp only at hrun
      split at hrun
      · rename_i hrtx
        split at hrun
        · obtain ⟨rfl, rfl⟩ := Prod.mk.inj (Option.some.inj hrun)
          exact Or.inr ⟨b, _, hready, hno b, .requeue distance sinr hrtx⟩
        · obtain ⟨rfl, rfl⟩ := Prod.mk.inj (Option.some.inj hrun)
          exact Or.inl ⟨rfl, hK.drop hready⟩
      · obtain ⟨rfl, rfl⟩ := Prod.mk.inj (Option.some.inj hrun)
        exact Or.inr ⟨b, _, hready, hno b, .send⟩
  · split at hrun
    · refine (hK.handleLoop fuel h hrun).imp_right fun ⟨b, s₁, hsome, hpos, hends⟩ => ?_
      exact ⟨b, s₁, hsome, fun _ => hpos, hends⟩
    · obtain ⟨rfl, rfl⟩ := Prod.mk.inj (Option.some.inj hrun)
      exact Or.inl ⟨rfl, h⟩

/-! ### All events -/

/-- Everything the layer does, and what is done to it. -/
structure LayerRules (K : Option HarqPkt → PdcpLayer H → Prop) : Prop extends StepRules K where
  handle : ∀ grant, HandleRules grant K
  ends : ∀ {s b sent s'}, K (some b) s → Ends s b sent s' → K none s'
  advance : ∀ {s} (t : ℚ) (i : In), K none s → K none (s.advance t i)
  receive : ∀ {s} (e : Env), K none s →
    K none { s with packetH := PacketHandler.receive s.packetH e }
  release : ∀ {s}, K none s → K none s.release.1

/-- **What all of these keep, every event keeps.** -/
theorem apply_rule (hK : LayerRules K) {fuel : ℕ} {s s' : PdcpLayer H} {e : Event Env In}
    (h : K none s) (hrun : s.apply fuel e = some s') : K none s' := by
  cases e with
  | env e =>
      obtain rfl := Option.some.inj hrun
      exact hK.receive e h
  | step t i =>
      obtain rfl := Option.some.inj hrun
      exact step_rule hK.toStepRules (hK.advance t i h)
  | handlePkt bits mcs sinr distance =>
      obtain ⟨⟨sent, s₁⟩, hs, rfl⟩ := Option.map_eq_some_iff.mp hrun
      rcases handlePkt_rule (hK.handle bits) h hs with ⟨-, hnone⟩ | ⟨b, s₂, hsome, -, hends⟩
      · exact hnone
      · exact hK.ends hsome hends
  | release =>
      obtain rfl := Option.some.inj hrun
      exact hK.release h

/-! ### What the handler keeps -/

section

variable {J : H → Prop}
  (hdrop : ∀ h x b, J h → J (PacketHandler.drop (PacketHandler.recordError h x) b))

include hdrop

/-- Cleaning up touches the handler only when it gives a block up. -/
theorem CleanupRules.of_packetH : CleanupRules fun _ (s : PdcpLayer H) => J s.packetH where
  drain h _ := hdrop _ _ _ h
  drop h := hdrop _ _ _ h
  count h := h
  expire h _ _ := h
  unstore h _ := h

/-- So does `handle_pkt`, until it ends. -/
theorem HandleRules.of_packetH (grant : ℚ) :
    HandleRules grant fun _ (s : PdcpLayer H) => J s.packetH where
  toDropRules := (CleanupRules.of_packetH hdrop).toDropRules
  fetch _ _ h _ _ := (CleanupRules.of_packetH hdrop).toDropRules.fetch h
  forget h _ := h
  expired h _ _ := hdrop _ _ _ h
  ready h _ := h

end

/-- A property of the handler that the layer's own calls keep, all but `release`. -/
structure HandlerKeeps (J : H → Prop) : Prop where
  step : ∀ {h} (t : ℚ), J h → J (PacketHandler.step h t)
  ingest : ∀ {h} (t : ℚ) (i : In), J h → J (PacketHandler.ingest h t i).1
  pop : ∀ {h p h'}, J h → PacketHandler.popIngressPkt h = some (p, h') → J h'
  refuse : ∀ {h} (p : IpPkt), J h → J (PacketHandler.dropIngressPkt h p)
  recordError : ∀ {h} (x : ℚ), J h → J (PacketHandler.recordError h x)
  drop : ∀ {h} (b : HarqPkt), J h → J (PacketHandler.drop h b)
  push : ∀ {h} (b : HarqPkt), J h → J (PacketHandler.push h b)

namespace HandlerKeeps

variable {J : H → Prop}

theorem stepRules (hJ : HandlerKeeps J) : StepRules fun _ (s : PdcpLayer H) => J s.packetH where
  toCleanupRules := .of_packetH fun _ x b hh => hJ.drop b (hJ.recordError x hh)
  offer {s p h} hs hpop := by
    have hh := hJ.pop hs hpop
    rcases offer_cases { s with packetH := h } p with ⟨-, hoffer⟩ | ⟨-, hoffer⟩
    · rw [hoffer]
      exact hh
    · rw [hoffer]
      exact hJ.refuse p hh

theorem handleRules (hJ : HandlerKeeps J) (grant : ℚ) :
    HandleRules grant fun _ (s : PdcpLayer H) => J s.packetH :=
  .of_packetH (fun _ x b hh => hJ.drop b (hJ.recordError x hh)) grant

theorem layer_step (hJ : HandlerKeeps J) {s : PdcpLayer H} (t : ℚ) (i : In) (h : J s.packetH) :
    J (s.step t i).packetH :=
  step_rule hJ.stepRules (hJ.ingest t i (hJ.step t h))

theorem handlePkt (hJ : HandlerKeeps J) {fuel : ℕ} {s s' : PdcpLayer H} {bits : ℚ} {mcs : ℤ}
    {sinr distance sent : ℚ} (h : J s.packetH)
    (hrun : s.handlePkt fuel bits mcs sinr distance = some (sent, s')) : J s'.packetH := by
  rcases handlePkt_rule (hJ.handleRules bits) h hrun with ⟨-, hnone⟩ | ⟨b, s₁, hsome, -, hends⟩
  · exact hnone
  · cases hends with
    | send => exact hJ.push b hsome
    | store | requeue => exact hsome

end HandlerKeeps

end PdcpLayer

end NetworkEmulator
