/-
What `step` leaves behind of expired packets.

`cleanup_expired_ip_pkts` purges the two lanes of the buffer by their heads, so it leaves
nothing expired exactly when the expired packets stood in front.  In the plain deque they
always do.  In a DualPI2 queue they need not, since what a grant leaves of a packet goes
to the back of its queue.  The HARQ buffer is searched for expired blocks and keeps none.
-/
import NetworkEmulator.Proofs.Lanes
import NetworkEmulator.Model.CapturedPacketHandler

namespace NetworkEmulator

open Purge (purge fresh popOlder OldFirst)

/-! ### The HARQ buffer -/

namespace HarqHandler

theorem takeOlder_none {bound : ℚ} :
    ∀ {l : List HarqPkt}, takeOlder bound l = none → ∀ b ∈ l, bound ≤ b.ipT := by
  intro l
  induction l with
  | nil => intro _ b hb; cases hb
  | cons x l ih =>
      intro h b hb
      simp only [takeOlder] at h
      split at h
      · rename_i hx
        rcases List.mem_cons.mp hb with rfl | hb
        · exact hx
        · exact ih (Option.map_eq_none_iff.mp h) b hb
      · cases h

theorem popPktOlderThan_none {h : HarqHandler} {bound : ℚ} (hpop : h.popPktOlderThan bound = none) :
    ∀ b ∈ h.harqBuffer, bound ≤ b.ipT := by
  unfold popPktOlderThan at hpop
  split at hpop
  · rename_i hnone
    exact takeOlder_none hnone
  · simp only at hpop
    split at hpop <;> cases hpop

end HarqHandler

/-! ### The parts of `step` -/

theorem Serves.ingested_grows {f f' : Feed} (hs : Serves f f') : f.ingested <+: f'.ingested := by
  induction hs with
  | refl => exact List.prefix_rfl
  | tail _ hstep ih =>
      refine ih.trans ?_
      cases hstep with
      | ingest hnew => exact List.prefix_append _ _
      | _ => exact List.prefix_rfl

namespace PdcpLayer

variable {H Env In : Type} [PacketHandler H Env In]

/-- Two states that differ at most in the lanes of the buffer, as far as expiry goes. -/
structure SameAge (s s' : PdcpLayer H) : Prop where
  backend : IpBuffer.SameBackend s.ipBuffer s'.ipBuffer
  harq : s'.harqBuffer = s.harqBuffer
  bound : s'.oldestAllowedIpT = s.oldestAllowedIpT
  expiredLog : s'.expiredLog = s.expiredLog

theorem SameAge.trans {s s' s'' : PdcpLayer H} (h : SameAge s s') (h' : SameAge s' s'') :
    SameAge s s'' :=
  ⟨h.backend.trans h'.backend, h'.harq.trans h.harq, h'.bound.trans h.bound,
    h'.expiredLog.trans h.expiredLog⟩

theorem SameAge.refl (s : PdcpLayer H) : SameAge s s := ⟨.refl _, rfl, rfl, rfl⟩

private theorem dropHarqPkt_age (s : PdcpLayer H) (b : HarqPkt) :
    SameAge s (s.dropHarqPkt b) := ⟨⟨rfl, rfl⟩, rfl, rfl, rfl⟩

/-- `cleanup_expired_ip_pkts` purges the lanes. -/
private theorem cleanupIpLoop_lanes (n : ℕ) :
    ∀ s : PdcpLayer H, (s.cleanupIpLoop n).ipBuffer.lanes
        = purge IpPkt.currentT s.oldestAllowedIpT n s.ipBuffer.lanes ∧
      SameAge s (s.cleanupIpLoop n) := by
  induction n with
  | zero => intro s; exact ⟨rfl, .refl s⟩
  | succ n ih =>
      intro s
      simp only [cleanupIpLoop, purge]
      have hhas : s.ipBuffer.hasPkts = (popOlder IpPkt.currentT s.ipBuffer.lanes).isSome :=
        IpBuffer.backendHasPkts_eq s.ipBuffer
      cases hpop : popOlder IpPkt.currentT s.ipBuffer.lanes with
      | none =>
          rw [hpop] at hhas
          rw [if_neg (by simp [hhas])]
          exact ⟨rfl, .refl s⟩
      | some r =>
          obtain ⟨p, l, c⟩ := r
          rw [hpop] at hhas
          rw [if_pos (by simp [hhas])]
          obtain ⟨hts, b', hb', hlanes⟩ := IpBuffer.popOldestPkt_lanes hpop
            (s.newBlock s.ipBuffer.getOldestTimestamp 0 0)
          have hsame := (IpBuffer.popOldestPkt_frame hb').sameBackend
          generalize ({ s.newBlock s.ipBuffer.getOldestTimestamp 0 0 with
            bits := p.size, pkts := [p] } : HarqPkt) = out at hb'
          by_cases hold : p.currentT < s.oldestAllowedIpT
          · have hexp : s.isExpired s.ipBuffer.getOldestTimestamp = true := by
              rw [hts]; exact decide_eq_true hold
            simp only [hexp, if_true, hb', if_pos hold]
            have hpopped : SameAge s
                { s with currentId := s.currentId + 1, ipBuffer := b' } := ⟨hsame, rfl, rfl, rfl⟩
            obtain ⟨hrest, hage⟩ := ih (({ s with
              currentId := s.currentId + 1, ipBuffer := b' } : PdcpLayer H).dropHarqPkt out)
            refine ⟨hrest.trans ?_, hpopped.trans ((dropHarqPkt_age _ out).trans hage)⟩
            rw [← hlanes]
            rfl
          · have hexp : s.isExpired s.ipBuffer.getOldestTimestamp = false := by
              rw [hts]; exact decide_eq_false hold
            simp only [hexp, Bool.false_eq_true, if_false, if_neg hold]
            exact ⟨trivial, .refl s⟩

private theorem cleanupExpiredIpPkts_lanes (s : PdcpLayer H) :
    s.cleanupExpiredIpPkts.ipBuffer.lanes
        = (fresh IpPkt.currentT s.oldestAllowedIpT s.ipBuffer.lanes.1,
          fresh IpPkt.currentT s.oldestAllowedIpT s.ipBuffer.lanes.2) ∧
      SameAge s s.cleanupExpiredIpPkts := by
  obtain ⟨hlanes, hage⟩ := cleanupIpLoop_lanes s.ipBuffer.backendSize s
  refine ⟨?_, hage⟩
  rw [IpBuffer.backendSize_eq] at hlanes
  unfold cleanupExpiredIpPkts
  rw [IpBuffer.backendSize_eq, hlanes]
  exact Purge.purge_eq _ _ _ le_rfl

/-- `drain_ingress_pkts` puts new packets at the back of the lanes. -/
private theorem drainIngressLoop_lanes (n : ℕ) :
    ∀ s : PdcpLayer H, (∀ p ∈ (PacketHandler.base s.packetH).ingressPkts, p.Fresh) →
      SameAge s (s.drainIngressLoop n) ∧
      ∃ l c, (s.drainIngressLoop n).ipBuffer.lanes
          = (s.ipBuffer.lanes.1 ++ l, s.ipBuffer.lanes.2 ++ c) ∧
        l.Sublist (PacketHandler.base s.packetH).ingressPkts ∧
        c.Sublist (PacketHandler.base s.packetH).ingressPkts := by
  induction n with
  | zero =>
      intro s _
      refine ⟨.refl s, [], [], ?_, List.nil_sublist _, List.nil_sublist _⟩
      rw [List.append_nil, List.append_nil]
      rfl
  | succ n ih =>
      intro s hfresh
      simp only [drainIngressLoop]
      split
      · refine ⟨.refl s, [], [], ?_, List.nil_sublist _, List.nil_sublist _⟩
        rw [List.append_nil, List.append_nil]
      · rename_i p h hpop
        rw [(popIngressPkt_intake hpop).1] at hfresh ⊢
        rw [List.forall_mem_cons] at hfresh
        obtain ⟨hbuf, hi, hharq, ht, hbudget, hlog⟩ := offer_spec { s with packetH := h } p
        obtain ⟨hsame, l₁, c₁, hlanes₁, hsub₁⟩ :=
          IpBuffer.addPkt_lanes s.ipBuffer hfresh.1.notFragment
        obtain ⟨hage, l₂, c₂, hlanes₂, hl₂, hc₂⟩ := ih ({ s with packetH := h }.offer p)
          (by rw [hi.ingress]; exact hfresh.2)
        rw [hi.ingress] at hl₂ hc₂
        have hoffer : SameAge s ({ s with packetH := h }.offer p) :=
          ⟨hbuf ▸ hsame, hharq, by rw [oldestAllowedIpT, ht, hbudget]; rfl, hlog⟩
        refine ⟨hoffer.trans hage, l₁ ++ l₂, c₁ ++ c₂, ?_, ?_, ?_⟩
        · rw [hlanes₂, hbuf]
          show ((s.ipBuffer.addPkt p).2.lanes.1 ++ l₂, (s.ipBuffer.addPkt p).2.lanes.2 ++ c₂) = _
          rw [hlanes₁, List.append_assoc, List.append_assoc]
        · exact ((List.sublist_append_left l₁ c₁).trans hsub₁).append hl₂
        · exact ((List.sublist_append_right l₁ c₁).trans hsub₁).append hc₂

private theorem drainAqm_age (s : PdcpLayer H) :
    SameAge s s.drainAqm ∧ s.drainAqm.ipBuffer.lanes = s.ipBuffer.lanes := by
  obtain ⟨dropped, size, h, heq⟩ := drainAqm_eq s
  rw [heq]
  exact ⟨⟨⟨rfl, rfl⟩, rfl, rfl, rfl⟩, rfl⟩

/-- `cleanup_expired_harq_pkts` leaves no expired block. -/
private theorem cleanupHarqLoop_clean (n : ℕ) :
    ∀ s : PdcpLayer H, s.harqBuffer.harqBuffer.length ≤ n →
      (∀ b ∈ (s.cleanupHarqLoop n).harqBuffer.harqBuffer, s.oldestAllowedIpT ≤ b.ipT) ∧
      (s.cleanupHarqLoop n).ipBuffer.lanes = s.ipBuffer.lanes ∧
      (s.cleanupHarqLoop n).oldestAllowedIpT = s.oldestAllowedIpT ∧
      (s.cleanupHarqLoop n).expiredLog = s.expiredLog := by
  induction n with
  | zero =>
      intro s hlen
      refine ⟨fun b hb => ?_, rfl, rfl, rfl⟩
      have hnil : s.harqBuffer.harqBuffer = [] := List.length_eq_zero_iff.mp (by omega)
      change b ∈ s.harqBuffer.harqBuffer at hb
      rw [hnil] at hb
      cases hb
  | succ n ih =>
      intro s hlen
      simp only [cleanupHarqLoop]
      split
      · rename_i hnone
        exact ⟨HarqHandler.popPktOlderThan_none hnone, rfl, rfl, rfl⟩
      · rename_i b hq hpop
        have hperm := HarqHandler.takeOlder_perm (HarqHandler.popPktOlderThan_spec hpop)
        have hshort : hq.harqBuffer.length ≤ n := by
          have := hperm.length_eq
          rw [List.length_cons] at this
          omega
        exact ih (({ s with harqBuffer := hq } : PdcpLayer H).dropHarqPkt b) hshort

/-! ### The theorem -/

/-- The packets taken in have timestamps that never decrease. -/
def ArrivesInOrder (s : PdcpLayer H) : Prop :=
  ((PacketHandler.base s.packetH).ingested.map IpPkt.currentT).Pairwise (· ≤ ·)

/-- No packet in the IP buffer and no block in the HARQ buffer is older than allowed. -/
structure NothingOverdue (s : PdcpLayer H) : Prop where
  buffer : ∀ p ∈ s.ipBuffer.shelf.waiting, s.oldestAllowedIpT ≤ p.currentT
  harq : ∀ b ∈ s.harqBuffer.harqBuffer, s.oldestAllowedIpT ≤ b.ipT

/-- What `step` leaves of the lanes: what came in goes to the back, and each old front goes. -/
private theorem step_lanes {cfg : DualPi2Config} (s : PdcpLayer H) (t : ℚ) (input : In)
    (hq : Queued cfg s.feed) : (s.step t input).oldestAllowedIpT = t - s.pktDelayBudgetS ∧
      (s.step t input).expiredLog = s.expiredLog ∧
      (∀ b ∈ (s.step t input).harqBuffer.harqBuffer, t - s.pktDelayBudgetS ≤ b.ipT) ∧
      ∃ l c, (s.step t input).ipBuffer.lanes
          = (fresh IpPkt.currentT (t - s.pktDelayBudgetS) (s.ipBuffer.lanes.1 ++ l),
            fresh IpPkt.currentT (t - s.pktDelayBudgetS) (s.ipBuffer.lanes.2 ++ c)) ∧
        l.Sublist (PacketHandler.base (s.advance t input).packetH).ingressPkts ∧
        c.Sublist (PacketHandler.base (s.advance t input).packetH).ingressPkts := by
  have hadvance : Queued cfg (s.advance t input).feed := hq.serves (advance_serves s t input)
  have hlanes₀ : (s.advance t input).ipBuffer.lanes = s.ipBuffer.lanes :=
    IpBuffer.lanes_step s.ipBuffer t
  have hbound₀ : (s.advance t input).oldestAllowedIpT = t - s.pktDelayBudgetS := rfl
  obtain ⟨hage₁, l, c, hlanes₁, hl, hc⟩ := drainIngressLoop_lanes
    (PacketHandler.base (s.advance t input).packetH).ingressPkts.length (s.advance t input)
    hadvance.fresh
  obtain ⟨hage₂, hlanes₂⟩ := drainAqm_age ((s.advance t input).drainIngressLoop
    (PacketHandler.base (s.advance t input).packetH).ingressPkts.length)
  obtain ⟨hlanes₃, hage₃⟩ := cleanupExpiredIpPkts_lanes (s.advance t input).drainIngressPkts
  obtain ⟨hclean, hlanes₄, hbound₄, hlog₄⟩ := cleanupHarqLoop_clean
    (s.advance t input).drainIngressPkts.cleanupExpiredIpPkts.harqBuffer.harqBuffer.length
    (s.advance t input).drainIngressPkts.cleanupExpiredIpPkts le_rfl
  have hbound : (s.advance t input).drainIngressPkts.oldestAllowedIpT = t - s.pktDelayBudgetS :=
    (hage₁.trans hage₂).bound.trans hbound₀
  refine ⟨hbound₄.trans (hage₃.bound.trans hbound), ?_, ?_, l, c, ?_, hl, hc⟩
  · exact hlog₄.trans (hage₃.expiredLog.trans (hage₁.trans hage₂).expiredLog)
  · intro b hb
    have hle := hclean b hb
    rwa [hage₃.bound, hbound] at hle
  · have hfinal : (s.step t input).ipBuffer.lanes = _ := hlanes₄.trans hlanes₃
    have hdrained : (s.advance t input).drainIngressPkts.ipBuffer.lanes
        = (s.ipBuffer.lanes.1 ++ l, s.ipBuffer.lanes.2 ++ c) := by
      rw [← hlanes₀]
      exact hlanes₂.trans hlanes₁
    rw [hfinal, hbound, hdrained]

/-- What `step` throws out goes by another way than what `handle_pkt` drops. -/
theorem step_expiredLog {cfg : DualPi2Config} {s : PdcpLayer H} {t : ℚ} {input : In}
    (hq : Queued cfg s.feed) : (s.step t input).expiredLog = s.expiredLog :=
  (step_lanes s t input hq).2.1

/-- **Whether one `step` throws out all that is overdue.** -/
theorem nothingOverdue_step_iff {cfg : DualPi2Config} {s : PdcpLayer H} {t : ℚ} {input : In}
    (hq : Queued cfg s.feed) (hord : (s.step t input).ArrivesInOrder) :
    (s.step t input).NothingOverdue ↔
      (cfg.enabled = true →
        OldFirst IpPkt.currentT (t - s.pktDelayBudgetS) s.ipBuffer.l4sQueue.lQueue ∧
        OldFirst IpPkt.currentT (t - s.pktDelayBudgetS) s.ipBuffer.l4sQueue.cQueue) := by
  obtain ⟨hbound, -, hharq, l, c, hlanes, hl, hc⟩ := step_lanes s t input hq
  have hidle : (s.step t input).ipBuffer.idle = [] := (hq.serves (step_serves s t input)).idle
  have hclean : (s.step t input).NothingOverdue ↔
      OldFirst IpPkt.currentT (t - s.pktDelayBudgetS) (s.ipBuffer.lanes.1 ++ l) ∧
        OldFirst IpPkt.currentT (t - s.pktDelayBudgetS) (s.ipBuffer.lanes.2 ++ c) := by
    rw [← Purge.fresh_iff, ← Purge.fresh_iff]
    constructor
    · intro h
      have hmem := h.buffer
      simp only [IpBuffer.mem_waiting hidle, hlanes, hbound] at hmem
      exact ⟨fun p hp => hmem p (Or.inl hp), fun p hp => hmem p (Or.inr hp)⟩
    · rintro ⟨hleft, hright⟩
      refine ⟨fun p hp => ?_, by rw [hbound]; exact hharq⟩
      rw [IpBuffer.mem_waiting hidle, hlanes] at hp
      rw [hbound]
      exact hp.elim (hleft p) (hright p)
  -- what waits came in before what enters
  have hadvance : Queued cfg (s.advance t input).feed := hq.serves (advance_serves s t input)
  have hidle₀ : (s.advance t input).ipBuffer.idle = [] := hadvance.idle
  obtain ⟨gone, hing, hfrom, hplain⟩ := hadvance.times
  have hgrows : (s.advance t input).feed.ingested <+: (s.step t input).feed.ingested :=
    Serves.ingested_grows (step_rule (layerRules_serves _).toStepRules .refl)
  have hsorted := hord.sublist (hgrows.map IpPkt.currentT).sublist
  rw [hing, List.map_append, List.pairwise_append] at hsorted
  obtain ⟨hgone, hnew, hle⟩ := hsorted
  have hlanes₀ : (s.advance t input).ipBuffer.lanes = s.ipBuffer.lanes :=
    IpBuffer.lanes_step s.ipBuffer t
  have hwait : ∀ p, p ∈ s.ipBuffer.lanes.1 ∨ p ∈ s.ipBuffer.lanes.2 →
      ∀ q ∈ (s.advance t input).feed.ingress, p.currentT ≤ q.currentT := by
    intro p hp q hqin
    rw [← hlanes₀, ← IpBuffer.mem_waiting hidle₀] at hp
    exact hle _ (hfrom p hp) _ (List.mem_map_of_mem hqin)
  rw [hclean,
    Purge.oldFirst_append_iff (hnew.sublist (hl.map _)) fun p hp q hqin =>
      hwait p (Or.inl hp) q (hl.subset hqin),
    Purge.oldFirst_append_iff (hnew.sublist (hc.map _)) fun p hp q hqin =>
      hwait p (Or.inr hp) q (hc.subset hqin)]
  have hcfg : s.ipBuffer.l4sCfg = cfg := hq.l4sCfg
  by_cases he : cfg.enabled = true
  · simp only [IpBuffer.lanes, hcfg, he, if_true, true_implies]
  · have he' : s.ipBuffer.l4sCfg.enabled = false := by rw [hcfg]; simpa using he
    have hdeque : OldFirst IpPkt.currentT (t - s.pktDelayBudgetS) s.ipBuffer.pktList :=
      .of_sorted (hgone.sublist (hplain (by
        rw [hadvance.l4sCfg, ← hcfg]
        exact he')))
    rw [IpBuffer.lanes_plain he']
    exact iff_of_true ⟨List.Pairwise.nil, hdeque⟩ fun hon => absurd hon he

/-- **Whether expiry is complete.**  In every run whose packets come in with timestamps
that never decrease, for both handlers: right after a step at `t`, nothing overdue is
left in the IP buffer and the HARQ buffer exactly when, with DualPI2, the packets overdue
at `t` stood in front of all others in both queues before the step. -/
theorem expiry_complete_iff (cfg : PacketHandlerConfig) (verbosity : ℤ) (seeds : Seeds)
    (budgetS : ℚ) (fuel : ℕ) (t : ℚ) :
    (∀ (es : List (Event Empty ℚ)) (s : PdcpLayer SimulatedPacketHandler) (input : ℚ),
      (simulated cfg verbosity seeds budgetS).exec fuel es = some s →
      (s.step t input).ArrivesInOrder →
      ((s.step t input).NothingOverdue ↔ (cfg.l4sC.enabled = true →
        OldFirst IpPkt.currentT (t - s.pktDelayBudgetS) s.ipBuffer.l4sQueue.lQueue ∧
        OldFirst IpPkt.currentT (t - s.pktDelayBudgetS) s.ipBuffer.l4sQueue.cQueue))) ∧
    ∀ (es : List (Event NfqPacketMetadata Draws)) (s : PdcpLayer CapturedPacketHandler)
        (input : Draws),
      (captured cfg verbosity seeds budgetS).exec fuel es = some s →
      (s.step t input).ArrivesInOrder →
      ((s.step t input).NothingOverdue ↔ (cfg.l4sC.enabled = true →
        OldFirst IpPkt.currentT (t - s.pktDelayBudgetS) s.ipBuffer.l4sQueue.lQueue ∧
        OldFirst IpPkt.currentT (t - s.pktDelayBudgetS) s.ipBuffer.l4sQueue.cQueue)) :=
  ⟨fun _ _ _ hrun hord => nothingOverdue_step_iff (exec_queued rfl rfl hrun) hord,
    fun _ _ _ hrun hord => nothingOverdue_step_iff (exec_queued rfl rfl hrun) hord⟩

/-- A fragment in front of a younger packet is thrown out with nothing left behind, by
either handler. -/
theorem expiry_complete_front :
    (∃ s : PdcpLayer SimulatedPacketHandler,
      (simulated { l4sC := { enabled := true } } 0 { unitDist := fun _ => 1 / 2 } (35 / 100)).exec 5
        [.step 0 12000, .handlePkt 1000 5 0 0, .step (1 / 1000) 12000] = some s ∧
      (s.step (3505 / 10000) 0).NothingOverdue) ∧
    ∃ s : PdcpLayer CapturedPacketHandler,
      (captured { l4sC := { enabled := true } } 0 { unitDist := fun _ => 1 / 2 } (35 / 100)).exec 5
        [.env ⟨1500, 1, .notEct, []⟩, .step 0 fun _ => 0, .handlePkt 1000 5 0 0,
          .env ⟨1500, 2, .ect1, []⟩, .step (1 / 1000) fun _ => 1 / 1000] = some s ∧
      (s.step (3505 / 10000) fun _ => 0).NothingOverdue := by
  have hall := expiry_complete_iff { l4sC := { enabled := true } } 0 { unitDist := fun _ => 1 / 2 }
    (35 / 100) 5 (3505 / 10000)
  constructor
  · refine Runs.exists_of_view (fun s => ((s.step (3505 / 10000) 0).packetH.ingested.map
      IpPkt.currentT, s.ipBuffer.l4sQueue.lQueue.map IpPkt.currentT,
      s.ipBuffer.l4sQueue.cQueue.map IpPkt.currentT)) (x := ([0, 1 / 1000], [], [0, 1 / 1000]))
      (by decide +kernel) fun s hs hview => ?_
    simp only [Prod.mk.injEq] at hview
    obtain ⟨hing, hl, hc⟩ := hview
    refine (hall.1 _ s 0 hs ?_).mpr fun _ => ⟨.of_sorted ?_, .of_sorted ?_⟩
    · show List.Pairwise _ ((s.step (3505 / 10000) 0).packetH.ingested.map IpPkt.currentT)
      rw [hing]
      norm_num
    · rw [hl]
      exact .nil
    · rw [hc]
      norm_num
  · refine Runs.exists_of_view (fun s => ((s.step (3505 / 10000) fun _ => 0).packetH.ingested.map
      IpPkt.currentT, s.ipBuffer.l4sQueue.lQueue.map IpPkt.currentT,
      s.ipBuffer.l4sQueue.cQueue.map IpPkt.currentT)) (x := ([0, 1 / 1000], [1 / 1000], [0]))
      (by decide +kernel) fun s hs hview => ?_
    simp only [Prod.mk.injEq] at hview
    obtain ⟨hing, hl, hc⟩ := hview
    refine (hall.2 _ s (fun _ => 0) hs ?_).mpr fun _ => ⟨.of_sorted ?_, .of_sorted ?_⟩
    · show List.Pairwise _ ((s.step (3505 / 10000) fun _ => 0).packetH.ingested.map IpPkt.currentT)
      rw [hing]
      norm_num
    · rw [hl]
      exact List.pairwise_singleton _ _
    · rw [hc]
      exact List.pairwise_singleton _ _

/-- What a grant leaves of the first packet goes behind the second one, and outlives its
time there. -/
theorem expiry_incomplete :
    ∃ s : PdcpLayer SimulatedPacketHandler,
      (simulated { l4sC := { enabled := true } } 0 { unitDist := fun _ => 1 / 2 } (35 / 100)).exec 5
        [.step 0 12000, .step (1 / 1000) 12000, .handlePkt 1000 5 0 0,
          .step (3505 / 10000) 0] = some s ∧
      s.ArrivesInOrder ∧ ¬s.NothingOverdue := by
  refine Runs.exists_of_view (fun s => (s.packetH.ingested.map IpPkt.currentT,
    s.ipBuffer.l4sQueue.cQueue.map IpPkt.currentT, s.oldestAllowedIpT))
    (x := ([0, 1 / 1000], [1 / 1000, 0], 1 / 2000)) (by decide +kernel) fun s hs hview => ?_
  simp only [Prod.mk.injEq] at hview
  obtain ⟨hing, hc, hbound⟩ := hview
  refine ⟨?_, fun hnone => ?_⟩
  · show List.Pairwise _ (s.packetH.ingested.map IpPkt.currentT)
    rw [hing]
    norm_num
  · have hmem : (0 : ℚ) ∈ s.ipBuffer.l4sQueue.cQueue.map IpPkt.currentT := by simp [hc]
    obtain ⟨p, hp, hzero⟩ := List.mem_map.mp hmem
    have hle := hnone.buffer p (List.mem_append_right _ (List.mem_append_right _ hp))
    rw [hbound, hzero] at hle
    norm_num at hle

end PdcpLayer

end NetworkEmulator
