/-
What `handle_pkt` answers a grant with.

The source compiles the retransmission model out, so that `get_rtx` never asks for another
transmission and the HARQ buffer stays empty.  What is left of `handle_pkt` is the block
that `get_pkts` fills, which has no more bits than the grant.
-/
import NetworkEmulator.Proofs.Observe
import NetworkEmulator.Proofs.Progress

namespace NetworkEmulator

namespace IpBuffer

/-- What a block has got and what may still come never exceed the grant. -/
private theorem loopRules_bits (grant : ℚ) :
    LoopRules fun bits _ out => 0 ≤ bits ∧ out.bits + bits ≤ grant where
  nothing h _ := h
  whole {bits _ _ out p} h _ hfits := by
    refine ⟨sub_nonneg.mpr hfits, ?_⟩
    show out.bits + p.size + (bits - p.size) ≤ grant
    linarith [h.2]
  piece {bits _ _ out _} h _ _ _ := by
    refine ⟨le_rfl, ?_⟩
    show out.bits + bits + 0 ≤ grant
    linarith [h.2]

/-- **A block has no more bits than the grant it was filled for.** -/
theorem getPkts_bits {grant : ℚ} (hgrant : 0 ≤ grant) (b : IpBuffer) (out : HarqPkt) :
    (b.getPkts grant out).2.bits ≤ grant := by
  have hfloor : (0 : ℚ) ≤ (⌊grant⌋ : ℤ) := by exact_mod_cast Int.floor_nonneg.mpr hgrant
  have hstart : (0 : ℚ) + (⌊grant⌋ : ℤ) ≤ grant := by linarith [Int.floor_le grant]
  obtain ⟨left, _, ⟨hleft, hsum⟩, -⟩ :=
    getPkts_rule (loopRules_bits grant) b grant out ⟨hfloor, hstart⟩
  linarith

end IpBuffer

namespace PdcpLayer

/-! ### The HARQ buffer stays empty -/

section Unstored

variable {H Env In : Type} [PacketHandler H Env In]

/-- No block waits for another transmission. -/
def Unstored (s : PdcpLayer H) : Prop := s.harqBuffer.harqBuffer = []

omit [PacketHandler H Env In] in
theorem Unstored.not_ready {s : PdcpLayer H} (h : s.Unstored) :
    s.harqBuffer.isPktReady = false := by
  rw [HarqHandler.isPktReady, h]
  rfl

private theorem unstored_drops : DropRules fun _ (s : PdcpLayer H) => s.Unstored where
  drain h _ := h
  drop h := h

private theorem unstored_handle (grant : ℚ) :
    HandleRules grant fun _ (s : PdcpLayer H) => s.Unstored where
  toDropRules := unstored_drops
  fetch _ _ h _ _ := unstored_drops.fetch h
  forget h _ := h
  expired h _ _ := h
  ready {s b harq} h hget := by
    have hbuffer := HarqHandler.getPkt_spec hget
    rw [show s.harqBuffer.harqBuffer = [] from h] at hbuffer
    cases hbuffer

/-- **No event stores a block.** -/
theorem unstored_rules : LayerRules fun _ (s : PdcpLayer H) => s.Unstored where
  toDropRules := unstored_drops
  offer {s p h'} h _ := by
    show (({ s with packetH := h' } : PdcpLayer H).offer p).harqBuffer.harqBuffer = []
    rcases offer_cases { s with packetH := h' } p with ⟨-, hoffer⟩ | ⟨-, hoffer⟩
    · rw [hoffer]
      exact h
    · rw [hoffer]
      exact h
  count h := h
  expire h _ _ := h
  unstore {s b harq} h hpop := by
    have hbuffer := HarqHandler.takeOlder_perm (HarqHandler.popPktOlderThan_spec hpop)
    rw [show s.harqBuffer.harqBuffer = [] from h] at hbuffer
    cases hbuffer.nil_eq
  handle := unstored_handle
  ends h hends := by
    cases hends with
    | send => exact h
    | store mcs sinr hrtx => cases hrtx
    | requeue distance sinr hrtx => cases hrtx
  advance _ _ h := h
  receive _ h := h
  release h := h

end Unstored

/-! ### One grant -/

section Grant

variable {H Env In : Type} [PacketHandler H Env In]

/-- The block in hand fits the grant, and is made of its packets. -/
structure Fitting (grant : ℚ) (inHand : Option HarqPkt) (s : PdcpLayer H) : Prop where
  unstored : s.Unstored
  fits : ∀ b ∈ inHand, b.bits ≤ grant ∧ b.bits = weight IpPkt.size b.pkts

private theorem fitting_drops (grant : ℚ) :
    DropRules fun inHand (s : PdcpLayer H) => Fitting grant inHand s where
  drain h _ := ⟨h.unstored, h.fits⟩
  drop h := ⟨h.unstored, fun b hb => by cases hb⟩

/-- What `get_pkts` fills fits. -/
private theorem fitting_fill {s : PdcpLayer H} {grant : ℚ} (h : s.Unstored) (hgrant : 0 < grant)
    (mcs distance : ℤ) :
    Fitting grant (some (s.fill grant mcs distance).1) (s.fill grant mcs distance).2 := by
  obtain ⟨new, -, hblock⟩ := IpBuffer.getPkts_filled (G := ⊤) (fun _ => trivial) s.ipBuffer grant
    (s.newBlock s.ipBuffer.getOldestTimestamp mcs distance) (fun _ _ => trivial)
  refine ⟨h, fun b hb => ?_⟩
  obtain rfl := Option.mem_some.mp hb
  refine ⟨IpBuffer.getPkts_bits hgrant.le .., ?_⟩
  rw [show (s.fill grant mcs distance).1 = _ from hblock]
  rfl

theorem fitting_handle (grant : ℚ) :
    HandleRules grant fun inHand (s : PdcpLayer H) => Fitting grant inHand s where
  toDropRules := fitting_drops grant
  fetch mcs distance h hgrant _ :=
    (fitting_drops grant).fetch (fitting_fill h.unstored hgrant mcs distance)
  forget h _ := ⟨h.unstored, fun b hb => by cases hb⟩
  expired h _ _ := ⟨h.unstored, fun b hb => by cases hb⟩
  ready {s b harq} h hget := by
    have hbuffer := HarqHandler.getPkt_spec hget
    rw [show s.harqBuffer.harqBuffer = [] from h.unstored] at hbuffer
    cases hbuffer

/-- **`handle_pkt` sends no more than the grant**, and never a negative number of bits. -/
theorem Unstored.handlePkt {s s' : PdcpLayer H} (h : s.Unstored) {fuel : ℕ} {grant : ℚ}
    (hgrant : 0 ≤ grant) {mcs : ℤ} {sinr distance sent : ℚ}
    (hrun : s.handlePkt fuel grant mcs sinr distance = some (sent, s')) :
    s'.Unstored ∧ 0 ≤ sent ∧ sent ≤ grant := by
  have hstart : Fitting grant none s := ⟨h, fun b hb => by cases hb⟩
  rcases handlePkt_rule (fitting_handle grant) hstart hrun with
    ⟨rfl, hnone⟩ | ⟨b, s₁, hsome, hpos, hends⟩
  · exact ⟨hnone.unstored, le_rfl, hgrant⟩
  · cases hends with
    | send => exact ⟨hsome.unstored, (hpos h.not_ready).le, (hsome.fits b rfl).1⟩
    | store mcs sinr hrtx => cases hrtx
    | requeue distance sinr hrtx => cases hrtx

/-! ### What it pushes -/

/-- What was pushed before the block in hand. -/
private theorem pushed_drops (before : List HarqPkt) :
    DropRules fun _ (s : PdcpLayer (Observed H)) => s.packetH.pushed = before where
  drain {o s buffer dropped} h _ := by
    show (Observed.call _ (.drop dropped)).pushed = before
    rw [Observed.pushed_call, HandlerCall.pushed, List.append_nil]
    exact h
  drop {s b} h := by
    show (Observed.call _ (.drop b)).pushed = before
    rw [Observed.pushed_call, HandlerCall.pushed, List.append_nil]
    exact h

private theorem pushed_handle (grant : ℚ) (before : List HarqPkt) :
    HandleRules grant fun _ (s : PdcpLayer (Observed H)) => s.packetH.pushed = before where
  toDropRules := pushed_drops before
  fetch _ _ h _ _ := (pushed_drops before).fetch h
  forget h _ := h
  expired {s b} h _ _ := (pushed_drops before).drop (s := s) (b := b) h
  ready h _ := h

/-- **`handle_pkt` answers with what it pushes**: the bits of one block, or of none. -/
theorem Unstored.handlePkt_pushed {s s' : PdcpLayer (Observed H)} (h : s.Unstored) {fuel : ℕ}
    {grant : ℚ} {mcs : ℤ} {sinr distance sent : ℚ}
    (hrun : s.handlePkt fuel grant mcs sinr distance = some (sent, s')) :
    ∃ new : List HarqPkt, s'.packetH.pushed = s.packetH.pushed ++ new ∧
      sent = weight IpPkt.size (new.flatMap HarqPkt.pkts) ∧ new.length ≤ 1 := by
  have hstart : Fitting grant none s ∧ s.packetH.pushed = s.packetH.pushed :=
    ⟨⟨h, fun b hb => by cases hb⟩, rfl⟩
  rcases handlePkt_rule ((fitting_handle grant).and (pushed_handle grant s.packetH.pushed)) hstart
    hrun with ⟨rfl, -, hsame⟩ | ⟨b, s₁, ⟨hfit, hsame⟩, -, hends⟩
  · exact ⟨[], by rw [hsame, List.append_nil], rfl, Nat.zero_le 1⟩
  · cases hends with
    | send =>
        refine ⟨[b], ?_, ?_, le_rfl⟩
        · show (s₁.packetH.call (.push b)).pushed = _
          rw [Observed.pushed_call, hsame, HandlerCall.pushed]
        · rw [List.flatMap_singleton]
          exact (hfit.fits b rfl).2
    | store mcs sinr hrtx => cases hrtx
    | requeue distance sinr hrtx => cases hrtx

/-- `handle_pkt` returns, with the bits of what it pushed to the release side, and these
are no more than the grant. -/
def Honours (s : PdcpLayer (Observed H)) (grant : ℚ) (mcs : ℤ) (sinr distance : ℚ) : Prop :=
  ∃ sent s', (∃ fuel₀, ∀ fuel ≥ fuel₀, s.handlePkt fuel grant mcs sinr distance = some (sent, s')) ∧
    sent ≤ grant ∧ ∃ new : List HarqPkt, s'.packetH.pushed = s.packetH.pushed ++ new ∧
      sent = weight IpPkt.size (new.flatMap HarqPkt.pkts)

/-- **A grant of at least one bit is honoured** while no block is stored. -/
theorem Unstored.honours {s : PdcpLayer (Observed H)} (h : s.Unstored) {grant : ℚ}
    (hgrant : 1 ≤ grant) (mcs : ℤ) (sinr distance : ℚ) : s.Honours grant mcs sinr distance := by
  obtain ⟨⟨sent, s'⟩, fuel₀, hreturns⟩ := s.handlePkt_returns hgrant mcs sinr distance
  have hrun := hreturns fuel₀ le_rfl
  obtain ⟨new, hpushed, hsent, -⟩ := h.handlePkt_pushed hrun
  exact ⟨sent, s', ⟨fuel₀, hreturns⟩, (h.handlePkt (zero_le_one.trans hgrant) hrun).2.2, new,
    hpushed, hsent⟩

end Grant

end PdcpLayer

end NetworkEmulator
