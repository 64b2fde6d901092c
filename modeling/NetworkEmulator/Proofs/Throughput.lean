/-
The mean throughput that a UE tells its physical layer, `ue::get_avg_tp`, is not negative.

It is fed by `release`, with the bits of the blocks a simulated handler lets go and the
original sizes of the packets a captured one does.  `Payer` says that of both handlers and
`Paid` is what a layer keeps: no fragment has a negative size, and every block has the bits
of its packets.
-/
import NetworkEmulator.Proofs.Conservation
import NetworkEmulator.Proofs.SharedLayers

namespace NetworkEmulator

open PacketHandler (base)

/-! ### The keeper of the mean -/

namespace MeanHandler

/-- What the keeper was fed is not negative. -/
structure Nonneg (m : MeanHandler) : Prop where
  step : 0 ≤ m.tValue
  total : 0 ≤ m.totalValue
  counter : 1 ≤ m.totalCounter

theorem nonneg_new : ({} : MeanHandler).Nonneg := ⟨le_rfl, le_rfl, le_rfl⟩

theorem Nonneg.add {m : MeanHandler} (h : m.Nonneg) {v : ℚ} (hv : 0 ≤ v) : (m.add v).Nonneg :=
  ⟨add_nonneg h.step hv, h.total, h.counter⟩

theorem Nonneg.stepped {m : MeanHandler} (h : m.Nonneg) : m.step.Nonneg := by
  refine ⟨le_rfl, div_nonneg (add_nonneg (mul_nonneg h.total ?_) h.step) (Nat.cast_nonneg _),
    Nat.le_add_left ..⟩
  rw [sub_nonneg]
  exact_mod_cast h.counter

end MeanHandler

/-! ### The handlers -/

/-- The mean throughput and the blocks that wait are those of before. -/
structure PacketHandlerBase.SamePay (h h' : PacketHandlerBase) : Prop where
  tpMean : h'.tpMean = h.tpMean
  pktList : h'.pktList = h.pktList

open PacketHandlerBase (SamePay ReleaseTotals)

/-- A handler whose mean throughput is what it releases. -/
class Payer (H : Type) {Env In : outParam Type} [PacketHandler H Env In] [Keeper H] : Prop where
  ingest : ∀ (h : H) (t : ℚ) (i : In), SamePay (base h) (base (PacketHandler.ingest h t i).1)
  refuse : ∀ (h : H) (p : IpPkt), SamePay (base h) (base (PacketHandler.dropIngressPkt h p))
  drop : ∀ (h : H) (b : HarqPkt), SamePay (base h) (base (PacketHandler.drop h b))
  receive : ∀ (h : H) (e : Env), SamePay (base h) (base (PacketHandler.receive h e))
  push : ∀ (h : H) (b : HarqPkt), (base (PacketHandler.push h b)).tpMean = (base h).tpMean ∧
    ∀ c ∈ (base (PacketHandler.push h b)).pktList, c ∈ (base h).pktList ∨ c.bits = b.bits
  release : ∀ h : H, (∀ b ∈ (base h).pktList, 0 ≤ b.bits) →
    (∀ p ∈ Keeper.held h, 0 ≤ p.originalSize) → ∃ bits, 0 ≤ bits ∧
      (base (PacketHandler.release h).1).tpMean = (base h).tpMean.add bits ∧
      (base (PacketHandler.release h).1).pktList ⊆ (base h).pktList

namespace SimulatedPacketHandler

private theorem updateAll_pay (dropped : Bool) (ps : List IpPkt) (h : SimulatedPacketHandler) :
    SamePay h.toPacketHandlerBase (h.updateAll dropped ps).toPacketHandlerBase := by
  refine updateAll_rule (P := fun g => SamePay h.toPacketHandlerBase g.toPacketHandlerBase)
    (fun {g} p d hg => ?_) dropped ps ⟨rfl, rfl⟩
  simp only [updatePendingPacket]
  split
  · exact ⟨hg.tpMean, hg.pktList⟩
  · exact ⟨hg.tpMean, hg.pktList⟩

/-- What the loop of `release` lets go has bits, and what stays was there. -/
private theorem releaseLoop_pay (bs : List HarqPkt) : ∀ (h : SimulatedPacketHandler)
    (r : ReleaseTotals), 0 ≤ r.bits → (∀ b ∈ bs, 0 ≤ b.bits) →
      0 ≤ (releaseLoop bs h r).2.2.bits ∧ (releaseLoop bs h r).2.1 ⊆ bs ∧
        (releaseLoop bs h r).1.tpMean = h.tpMean := by
  induction bs with
  | nil =>
      intro h r hr _
      exact ⟨hr, List.Subset.refl _, rfl⟩
  | cons b rest ih =>
      intro h r hr hbs
      have hrest : ∀ c ∈ rest, 0 ≤ c.bits := fun c hc => hbs c (List.mem_cons_of_mem _ hc)
      rw [releaseLoop]
      split
      · have hb := hbs b (List.mem_cons_self ..)
        obtain ⟨hbits, hsub, hmean⟩ := ih (h.updateAll false b.pkts)
          { count := r.count + 1
            bits := r.bits + b.bits
            latency := r.latency + (h.currentT - b.currentT)
            ipLatency := r.ipLatency + (h.currentT - b.ipT) } (add_nonneg hr hb) hrest
        exact ⟨hbits, fun c hc => List.mem_cons_of_mem _ (hsub hc),
          hmean.trans (updateAll_pay false b.pkts h).tpMean⟩
      · obtain ⟨hbits, hsub, hmean⟩ := ih h r hr hrest
        exact ⟨hbits, List.cons_subset_cons b hsub, hmean⟩

instance : Payer SimulatedPacketHandler where
  ingest h t bits := ingest_rule (P := fun g => SamePay h.toPacketHandlerBase
    g.toPacketHandlerBase) (fun _ _ _ hg => ⟨hg.tpMean, hg.pktList⟩) ⟨rfl, rfl⟩ t bits
  refuse _ _ := ⟨rfl, rfl⟩
  drop h b := updateAll_pay true b.pkts h
  receive _ e := e.elim
  push h b := by
    refine ⟨rfl, fun c hc => ?_⟩
    rcases List.mem_append.mp hc with hc | hc
    · exact Or.inl hc
    · exact Or.inr (List.mem_singleton.mp hc ▸ rfl)
  release h hbits _ := by
    obtain ⟨hnonneg, hsub, hmean⟩ := releaseLoop_pay h.pktList h {} le_rfl hbits
    exact ⟨_, hnonneg, congrArg (fun m => MeanHandler.add m _) hmean, hsub⟩

end SimulatedPacketHandler

namespace CapturedPacketHandler

/-- What one pass of `release` lets go has a size. -/
private theorem releaseOne_pay {h h' : CapturedPacketHandler} {p : IpPkt} {r r' : ReleaseTotals}
    (hone : h.releaseOne p r = some (h', r')) (hr : 0 ≤ r.bits) (hp : 0 ≤ p.originalSize) :
    0 ≤ r'.bits ∧ SamePay h.toPacketHandlerBase h'.toPacketHandlerBase := by
  unfold releaseOne at hone
  split at hone
  · split at hone
    · obtain ⟨rfl, rfl⟩ := Prod.mk.inj (Option.some.inj hone)
      exact ⟨hr, rfl, rfl⟩
    · split at hone
      · split at hone
        · dsimp only at hone
          split at hone
          · obtain ⟨rfl, rfl⟩ := Prod.mk.inj (Option.some.inj hone)
            exact ⟨add_nonneg hr hp, rfl, rfl⟩
          · obtain ⟨rfl, rfl⟩ := Prod.mk.inj (Option.some.inj hone)
            exact ⟨add_nonneg hr hp, rfl, rfl⟩
        · cases hone
      · cases hone
  · cases hone

private theorem releaseLoop_pay (ps : List IpPkt) : ∀ (h : CapturedPacketHandler)
    (r : ReleaseTotals), 0 ≤ r.bits → (∀ p ∈ ps, 0 ≤ p.originalSize) →
      0 ≤ (releaseLoop ps h r).2.2.bits ∧
        SamePay h.toPacketHandlerBase (releaseLoop ps h r).1.toPacketHandlerBase := by
  induction ps with
  | nil =>
      intro h r hr _
      exact ⟨hr, rfl, rfl⟩
  | cons p rest ih =>
      intro h r hr hps
      rw [releaseLoop]
      split
      · rename_i h' r' hone
        obtain ⟨hr', hpay⟩ := releaseOne_pay hone hr (hps p (List.mem_cons_self ..))
        obtain ⟨hbits, hpay'⟩ := ih h' r' hr' fun q hq => hps q (List.mem_cons_of_mem _ hq)
        exact ⟨hbits, hpay'.tpMean.trans hpay.tpMean, hpay'.pktList.trans hpay.pktList⟩
      · exact ⟨hr, rfl, rfl⟩

instance : Payer CapturedPacketHandler where
  ingest h _ clock := ingest_rule (P := fun g => SamePay h.toPacketHandlerBase
    g.toPacketHandlerBase) (fun _ _ hg => ⟨hg.tpMean, hg.pktList⟩) ⟨rfl, rfl⟩ clock
  refuse _ _ := ⟨rfl, rfl⟩
  drop _ _ := ⟨rfl, rfl⟩
  receive _ _ := ⟨rfl, rfl⟩
  push _ _ := ⟨rfl, fun _ hc => Or.inl hc⟩
  release h _ hsizes := by
    obtain ⟨hnonneg, hpay⟩ := releaseLoop_pay h.outPkts h {} le_rfl hsizes
    refine ⟨_, hnonneg, congrArg (fun m => MeanHandler.add m _) hpay.tpMean, ?_⟩
    show (releaseLoop h.outPkts h {}).1.pktList ⊆ _
    rw [hpay.pktList]
    exact List.Subset.refl _

end CapturedPacketHandler

instance {H H' Env Env' In In' : Type} [PacketHandler H Env In] [PacketHandler H' Env' In']
    [Keeper H] [Keeper H'] [Payer H] [Payer H'] : Payer (H ⊕ H') where
  ingest h t i := by
    cases h with
    | inl h => exact Payer.ingest h t i.1
    | inr h => exact Payer.ingest h t i.2
  refuse h p := by
    cases h with
    | inl h => exact Payer.refuse h p
    | inr h => exact Payer.refuse h p
  drop h b := by
    cases h with
    | inl h => exact Payer.drop h b
    | inr h => exact Payer.drop h b
  receive h e := by
    rcases h with h | h <;> rcases e with e | e
    · exact Payer.receive h e
    · exact ⟨rfl, rfl⟩
    · exact ⟨rfl, rfl⟩
    · exact Payer.receive h e
  push h b := by
    cases h with
    | inl h => exact Payer.push h b
    | inr h => exact Payer.push h b
  release h := by
    cases h with
    | inl h => exact Payer.release h
    | inr h => exact Payer.release h

/-! ### The layer -/

namespace PdcpLayer

variable {H Env In : Type} [PacketHandler H Env In]

/-- What every move keeps, the loops of the layer keep. -/
theorem LayerRules.of_move {I : Custody H → Prop}
    (hmove : ∀ {k c c'}, Move c k c' → I c → I c') :
    LayerRules fun o (s : PdcpLayer H) => I (s.custody o) where
  drain {o s _ _} h hpop := moves_inv hmove ((stepRules_moves (s.custody o)).drain .refl hpop) h
  drop {s b} h := moves_inv hmove ((stepRules_moves (s.custody (some b))).drop .refl) h
  count h := h
  expire {s _ _} h hexpired hpop :=
    moves_inv hmove ((stepRules_moves (s.custody none)).expire .refl hexpired hpop) h
  unstore {s _ _} h hpop :=
    moves_inv hmove ((stepRules_moves (s.custody none)).unstore .refl hpop) h
  offer {s _ _} h hpop := moves_inv hmove ((stepRules_moves (s.custody none)).offer .refl hpop) h
  handle grant :=
    { drain := fun {o s _ _} h hpop =>
        moves_inv hmove ((stepRules_moves (s.custody o)).drain .refl hpop) h
      drop := fun {s b} h => moves_inv hmove ((stepRules_moves (s.custody (some b))).drop .refl) h
      fetch := fun {s} mcs distance h hgrant hhas => moves_inv hmove
        ((handleRules_moves (s.custody none) grant).fetch mcs distance .refl hgrant hhas) h
      forget := fun {s mcs distance} h hzero => moves_inv hmove
        ((handleRules_moves ((s.fetch grant mcs distance).2.custody _) grant).forget .refl hzero) h
      expired := fun {s b} h hpos hexpired => moves_inv hmove
        ((handleRules_moves (s.custody (some b)) grant).expired .refl hpos hexpired) h
      ready := fun {s _ _} h hget => moves_inv hmove
        ((handleRules_moves (s.custody none) grant).ready .refl hget) h }
  ends h hends := hmove hends.move h
  advance {s} t i h := moves_inv hmove (s.advance_moves t i) h
  receive {s} e h := hmove (Move.receive (s.custody none) e) h
  release {s} h := hmove (Move.release (s.custody none)) h

/-- A block has the bits of its packets. -/
def FilledBlock (b : HarqPkt) : Prop := b.bits = weight IpPkt.size b.pkts

variable [Keeper H]

/-- Every block has the bits of its packets, and no mean is negative. -/
structure Pays (o : Option HarqPkt) (s : PdcpLayer H) : Prop where
  inHand : ∀ b, o = some b → FilledBlock b
  stored : ∀ b ∈ s.harqBuffer.harqBuffer, FilledBlock b
  waiting : ∀ b ∈ (base s.packetH).pktList, 0 ≤ b.bits
  mean : (base s.packetH).tpMean.Nonneg

private theorem inherited_sizes :
    Inherited Relabel (Cut ⊤) Join fun p => 0 ≤ p.size ∧ 0 ≤ p.originalSize where
  relabel h hr := by
    rcases hr with hr | hr <;> cases hr <;> exact h
  cut h hc := by
    have hsize := (inherited_nonneg ⊤).cut h.1 hc
    cases hc
    exact ⟨⟨hsize.1, h.2⟩, ⟨hsize.2, h.2⟩⟩
  join h h' hj := by cases hj; exact ⟨add_nonneg h.1 h'.1, h.2⟩

/-- The sizes of fragments, through all moves. -/
private theorem sizes_rules : LayerRules fun o (s : PdcpLayer H) =>
    ∀ p ∈ (s.custody o).all, 0 ≤ p.size ∧ 0 ≤ p.originalSize :=
  .of_move fun hm h => hm.forall_all inherited_sizes (fun _ => trivial) (fun _ _ => trivial)
    (fun _ _ hfresh => ⟨hfresh.nonneg, hfresh.whole ▸ hfresh.nonneg⟩) h

omit [Keeper H] in
/-- What keeps the mean and the blocks keeps them sound. -/
private theorem Pays.same {o : Option HarqPkt} {s s' : PdcpLayer H} (h : Pays o s)
    (hharq : s'.harqBuffer.harqBuffer = s.harqBuffer.harqBuffer)
    (hpay : SamePay (base s.packetH) (base s'.packetH)) : Pays o s' :=
  ⟨h.inHand, hharq ▸ h.stored, by rw [hpay.pktList]; exact h.waiting,
    by rw [hpay.tpMean]; exact h.mean⟩

omit [Keeper H] in
private theorem Pays.handOver {o : Option HarqPkt} {s : PdcpLayer H} (h : Pays o s) :
    Pays none s := ⟨by simp, h.stored, h.waiting, h.mean⟩

variable [Payer H]

private theorem samePay_drop (h : H) (x : ℚ) (b : HarqPkt) : SamePay (base h)
    (base (PacketHandler.drop (PacketHandler.recordError h x) b)) := by
  have hdrop := Payer.drop (PacketHandler.recordError h x) b
  rw [PacketHandler.base_recordError] at hdrop
  exact ⟨hdrop.tpMean, hdrop.pktList⟩

private theorem pays_drops : DropRules fun o (s : PdcpLayer H) => Pays o s where
  drain h _ := h.same rfl (samePay_drop _ _ _)
  drop h := h.handOver.same rfl (samePay_drop _ _ _)

/-- **What a layer does keeps its blocks and its mean sound.** -/
theorem paid_rules : LayerRules fun o (s : PdcpLayer H) =>
    (∀ p ∈ (s.custody o).all, 0 ≤ p.size ∧ 0 ≤ p.originalSize) ∧ Pays o s where
  drain h hpop := ⟨sizes_rules.drain h.1 hpop, pays_drops.drain h.2 hpop⟩
  drop h := ⟨sizes_rules.drop h.1, pays_drops.drop h.2⟩
  count h := ⟨h.1, h.2.inHand, h.2.stored, h.2.waiting, h.2.mean⟩
  expire h hexpired hpop := by
    refine ⟨sizes_rules.expire h.1 hexpired hpop, ?_, h.2.stored, h.2.waiting, h.2.mean⟩
    obtain ⟨p, -, rfl⟩ := IpBuffer.popOldestPkt_spec ⊤ hpop
    intro b hb
    obtain rfl := Option.some.inj hb
    exact (weight_singleton ..).symm
  unstore h hpop := by
    have hperm := HarqHandler.takeOlder_perm (HarqHandler.popPktOlderThan_spec hpop)
    refine ⟨sizes_rules.unstore h.1 hpop, ?_, fun c hc => ?_, h.2.waiting, h.2.mean⟩
    · intro b hb
      obtain rfl := Option.some.inj hb
      exact h.2.stored _ (hperm.symm.subset (List.mem_cons_self ..))
    · exact h.2.stored c (hperm.symm.subset (List.mem_cons_of_mem _ hc))
  offer {s p g} h hpop := by
    refine ⟨sizes_rules.offer h.1 hpop, ?_⟩
    have hpopped : SamePay (base s.packetH) (base g) := by
      obtain ⟨rest, -, rfl⟩ := PacketHandler.popIngressPkt_eq_some hpop
      rw [PacketHandler.base_setBase]
      exact ⟨rfl, rfl⟩
    rcases offer_cases { s with packetH := g } p with ⟨-, hoffer⟩ | ⟨-, hoffer⟩
    · rw [hoffer]
      exact h.2.same rfl hpopped
    · rw [hoffer]
      have hrefuse := Payer.refuse g p
      exact h.2.same rfl
        ⟨hrefuse.tpMean.trans hpopped.tpMean, hrefuse.pktList.trans hpopped.pktList⟩
  handle grant :=
    { drain := fun h hpop => ⟨sizes_rules.drain h.1 hpop, pays_drops.drain h.2 hpop⟩
      drop := fun h => ⟨sizes_rules.drop h.1, pays_drops.drop h.2⟩
      fetch := fun {s} mcs distance h hgrant hhas => by
        refine ⟨(sizes_rules.handle grant).fetch mcs distance h.1 hgrant hhas,
          pays_drops.fetch ⟨?_, h.2.stored, h.2.waiting, h.2.mean⟩⟩
        intro b hb
        obtain rfl := Option.some.inj hb
        exact fetch_bits s grant mcs distance
      forget := fun {s mcs distance} h hzero =>
        ⟨(sizes_rules.handle grant).forget h.1 hzero, h.2.handOver⟩
      expired := fun {s b} h hpos hexpired =>
        ⟨(sizes_rules.handle grant).expired h.1 hpos hexpired,
          h.2.handOver.same rfl (samePay_drop _ _ _)⟩
      ready := fun h hget => by
        have hbuf := HarqHandler.getPkt_spec hget
        refine ⟨(sizes_rules.handle grant).ready h.1 hget, ?_, fun c hc => ?_, h.2.waiting,
          h.2.mean⟩
        · intro b hb
          obtain rfl := Option.some.inj hb
          exact h.2.stored _ (hbuf ▸ List.mem_cons_self ..)
        · exact h.2.stored c (hbuf ▸ List.mem_cons_of_mem _ hc) }
  ends {s b sent s'} h hends := by
    refine ⟨sizes_rules.ends h.1 hends, ?_⟩
    have hb : FilledBlock b := h.2.inHand b rfl
    cases hends with
    | send =>
        obtain ⟨hmean, hlist⟩ := Payer.push s.packetH b
        refine ⟨by simp, h.2.stored, fun c hc => ?_, by rw [hmean]; exact h.2.mean⟩
        rcases hlist c hc with hc | hbits
        · exact h.2.waiting c hc
        · rw [hbits, hb]
          refine weight_nonneg fun p hp => (h.1 p ?_).1
          simp [Custody.all, Custody.upstream, Custody.hand, custody,
            SimulatedPacketHandler.inBlocks, hp]
    | store mcs sinr hrtx =>
        obtain ⟨d, hd⟩ := HarqHandler.addPkts_spec s.harqBuffer b
        refine ⟨by simp, fun c hc => ?_, h.2.waiting, h.2.mean⟩
        rw [hd] at hc
        rcases List.mem_append.mp hc with hc | hc
        · exact h.2.stored c hc
        · rw [List.mem_singleton.mp hc]
          exact hb
    | requeue distance sinr hrtx =>
        obtain ⟨d, hd⟩ := HarqHandler.queue_spec s.harqBuffer b distance
        refine ⟨by simp, fun c hc => ?_, h.2.waiting, h.2.mean⟩
        rw [hd] at hc
        rcases List.mem_append.mp hc with hc | hc
        · exact h.2.stored c hc
        · rw [List.mem_singleton.mp hc]
          exact hb
  advance {s} t i h := by
    refine ⟨sizes_rules.advance t i h.1, by simp, h.2.stored, ?_, ?_⟩
    · show ∀ b ∈ (base (PacketHandler.ingest (PacketHandler.step s.packetH t) t i).1).pktList, _
      rw [(Payer.ingest _ t i).pktList, PacketHandler.base_step]
      exact h.2.waiting
    · show (base (PacketHandler.ingest (PacketHandler.step s.packetH t) t i).1).tpMean.Nonneg
      rw [(Payer.ingest _ t i).tpMean, PacketHandler.base_step]
      exact h.2.mean.stepped
  receive {s} e h :=
    ⟨sizes_rules.receive e h.1, h.2.same rfl (Payer.receive s.packetH e)⟩
  release {s} h := by
    obtain ⟨bits, hbits, hmean, hsub⟩ := Payer.release s.packetH h.2.waiting fun p hp =>
      (h.1 p (by simp [Custody.all, Keeper.kept, custody, hp])).2
    refine ⟨sizes_rules.release h.1, by simp, h.2.stored, fun c hc => h.2.waiting c (hsub hc), ?_⟩
    show (base (PacketHandler.release s.packetH).1).tpMean.Nonneg
    rw [hmean]
    exact h.2.mean.add hbits

end PdcpLayer

end NetworkEmulator
