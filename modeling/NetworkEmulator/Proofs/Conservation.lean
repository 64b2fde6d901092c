/-
Bits are conserved.

For every packet, the fragments of it that are anywhere in the layer, together with
what the handler delivered or dropped, have exactly the bits the packet came with.
The invariant is about all packets at once; a move keeps it because cutting and
joining split and add sizes exactly, and because a block is forgotten only when its
bits, none of which is negative, add up to nothing.
-/
import NetworkEmulator.Proofs.Flow
import NetworkEmulator.Proofs.Progress

namespace NetworkEmulator

/-- The bits a fragment has of packet `u`. -/
def IpPkt.bitsOf (u : UInt32) (p : IpPkt) : ℚ := if p.uid = u then p.size else 0

/-- The bits packet `u` came with, if this is packet `u`. -/
def IpPkt.originalBitsOf (u : UInt32) (p : IpPkt) : ℚ := if p.uid = u then p.originalSize else 0

open SimulatedPacketHandler (inBlocks)

namespace PdcpLayer

variable {H Env In : Type} [PacketHandler H Env In] [Keeper H]

/-- The bits of packet `u` that are anywhere: in the ingress queue, the three queues of
the IP buffer, the AQM dropped queue, the HARQ buffer, the handler's release list, or
already delivered or dropped. -/
def bitsAnywhere (s : PdcpLayer H) (u : UInt32) : ℚ :=
  weight (IpPkt.bitsOf u) (PacketHandler.base s.packetH).ingressPkts
    + weight (IpPkt.bitsOf u) s.ipBuffer.pktList
    + weight (IpPkt.bitsOf u) s.ipBuffer.l4sQueue.lQueue
    + weight (IpPkt.bitsOf u) s.ipBuffer.l4sQueue.cQueue
    + weight (IpPkt.bitsOf u) s.ipBuffer.l4sQueue.droppedQueue
    + weight (IpPkt.bitsOf u) (inBlocks s.harqBuffer.harqBuffer)
    + weight (IpPkt.bitsOf u) (Keeper.held s.packetH)
    + weight (IpPkt.bitsOf u) (PacketHandler.base s.packetH).done

/-- The packets `ingest` took in. -/
def takenIn (s : PdcpLayer H) : List IpPkt := (PacketHandler.base s.packetH).ingested

/-- No fragment is lost or duplicated.  Where several packets came with one id, their
bits are accounted for together. -/
structure ConservesBits (s : PdcpLayer H) : Prop where
  nonneg : ∀ p ∈ (s.custody none).all, 0 ≤ p.size
  total : ∀ u, s.bitsAnywhere u = weight (IpPkt.originalBitsOf u) s.takenIn
  each : (s.takenIn.map IpPkt.uid).Nodup → ∀ p ∈ s.takenIn, s.bitsAnywhere p.uid = p.originalSize

end PdcpLayer

/-! ### The invariant -/

section Invariant

private theorem inherited_nonneg_join : Inherited Relabel (Cut ⊤) Join fun p => 0 ≤ p.size where
  relabel h hr := by
    rcases hr with hr | hr <;> cases hr <;> exact h
  cut := (inherited_nonneg ⊤).cut
  join h h' hj := by cases hj; exact add_nonneg h h'

private theorem respects_bitsOf (u : UInt32) :
    Respects Relabel (Cut ⊤) Join (fun p => 0 ≤ p.size) Eq (IpPkt.bitsOf u) where
  relabel _ hr := by
    rcases hr with hr | hr <;> cases hr <;> rfl
  cut {p _ _} _ hc := by
    cases hc
    by_cases hu : p.uid = u <;> simp [IpPkt.bitsOf, IpPkt.piece, hu]
  join _ _ hj := by
    obtain ⟨hu, -, -, -⟩ := hj
    simp only [IpPkt.bitsOf, ← hu]
    split_ifs <;> ring

/-- Members that are not negative and add up to nothing are all nothing. -/
private theorem bitsOf_lost (u : UInt32) {l : List IpPkt} (hpos : ∀ p ∈ l, 0 ≤ p.size)
    (hsum : weight IpPkt.size l ≤ 0) : weight (IpPkt.bitsOf u) l = 0 := by
  have hzero : ∀ p ∈ l, p.size = 0 := by
    intro p hp
    have hle : p.size ≤ weight IpPkt.size l := le_weight hpos hp
    exact le_antisymm (hle.trans hsum) (hpos p hp)
  refine weight_eq_zero fun p hp => ?_
  simp only [IpPkt.bitsOf, hzero p hp, ite_self]

private theorem bitsOf_fresh (u : UInt32) {l : List IpPkt} (h : ∀ p ∈ l, p.Fresh) :
    weight (IpPkt.bitsOf u) l = weight (IpPkt.originalBitsOf u) l := by
  simp only [weight]
  refine congrArg List.sum (List.map_congr_left fun p hp => ?_)
  simp only [IpPkt.bitsOf, IpPkt.originalBitsOf, (h p hp).whole]

variable {H Env In : Type} [PacketHandler H Env In] [Keeper H]

/-- All bits are accounted for. -/
structure Accounted (c : Custody H) : Prop where
  nonneg : ∀ p ∈ c.all, 0 ≤ p.size
  total : ∀ u, weight (IpPkt.bitsOf u) c.all = weight (IpPkt.originalBitsOf u) c.ingested

theorem Accounted.move {k : MoveKind} {c c' : Custody H} (hm : Move c k c') (h : Accounted c) :
    Accounted c' := by
  obtain ⟨new, lost, hf⟩ := hm.carries (G := ⊤) (fun _ => trivial) (fun _ _ => trivial)
  have hbefore : ∀ p ∈ c.all ++ new, 0 ≤ p.size := by
    intro p hp
    exact (List.mem_append.mp hp).elim (h.nonneg p) fun hp => (hf.fresh p hp).nonneg
  have hafter := hf.rework.forall_mem inherited_nonneg_join hbefore
  refine ⟨fun p hp => hafter p (List.mem_append_left _ hp), fun u => ?_⟩
  have hlost : weight (IpPkt.bitsOf u) lost = 0 :=
    bitsOf_lost u (fun p hp => hafter p (List.mem_append_right _ hp)) hf.noBits
  have hsum := hf.rework.weight_eq inherited_nonneg_join (respects_bitsOf u) hbefore
  rw [weight_append, weight_append, hlost, add_zero, h.total u, bitsOf_fresh u hf.fresh] at hsum
  rw [hsum, hf.ingested, weight_append]

end Invariant

/-! ### The theorem -/

namespace PdcpLayer

variable {H Env In : Type} [PacketHandler H Env In] [Keeper H]

private theorem bitsAnywhere_eq (s : PdcpLayer H) (u : UInt32) :
    s.bitsAnywhere u = weight (IpPkt.bitsOf u) (s.custody none).all := by
  simp only [bitsAnywhere, Custody.all, Custody.upstream, Custody.hand, custody, IpBuffer.shelf,
    DualPi2Queue.shelf, Keeper.kept, weight_append, Option.toList_none, inBlocks, List.flatMap_nil,
    weight_nil]
  ring

theorem ConservesBits.of_accounted {s : PdcpLayer H} (h : Accounted (s.custody none)) :
    s.ConservesBits where
  nonneg := h.nonneg
  total u := (bitsAnywhere_eq s u).trans (h.total u)
  each hnd p hp := by
    rw [bitsAnywhere_eq, h.total]
    exact weight_key IpPkt.uid IpPkt.originalSize hnd hp

/-- With no packet anywhere there is nothing to account for. -/
private theorem accounted_empty {c : Custody H} (hall : c.all = []) (hing : c.ingested = []) :
    Accounted c :=
  ⟨by simp [hall], by simp [hall, hing]⟩

/-- **Bit conservation.**  Every run with grants of at least one bit completes, and
every state a run reaches accounts for the bits of every packet taken in; for both
packet handlers, both backends and every outcome of the random draws. -/
theorem pdcp_conserves_bits (cfg : PacketHandlerConfig) (verbosity : ℤ) (seeds : Seeds)
    (budgetS : ℚ) :
    (∀ es : List (Event Empty ℚ),
      ((∀ e ∈ es, Event.Grants e) → ∃ fuel₀, ∀ fuel ≥ fuel₀,
        ((simulated cfg verbosity seeds budgetS).exec fuel es).isSome = true) ∧
      ∀ fuel s, (simulated cfg verbosity seeds budgetS).exec fuel es = some s →
        s.ConservesBits) ∧
    ∀ es : List (Event NfqPacketMetadata Draws),
      ((∀ e ∈ es, Event.Grants e) → ∃ fuel₀, ∀ fuel ≥ fuel₀,
        ((captured cfg verbosity seeds budgetS).exec fuel es).isSome = true) ∧
      ∀ fuel s, (captured cfg verbosity seeds budgetS).exec fuel es = some s →
        s.ConservesBits := by
  refine ⟨fun es => ⟨fun hes => ?_, fun fuel s hrun => ?_⟩,
    fun es => ⟨fun hes => ?_, fun fuel s hrun => ?_⟩⟩
  · obtain ⟨s, fuel₀, h⟩ := exec_returns es hes (simulated cfg verbosity seeds budgetS)
    exact ⟨fuel₀, fun fuel hfuel => by rw [h fuel hfuel]; rfl⟩
  · exact .of_accounted (exec_inv Accounted.move (accounted_empty rfl rfl) hrun)
  · obtain ⟨s, fuel₀, h⟩ := exec_returns es hes (captured cfg verbosity seeds budgetS)
    exact ⟨fuel₀, fun fuel hfuel => by rw [h fuel hfuel]; rfl⟩
  · exact .of_accounted (exec_inv Accounted.move (accounted_empty rfl rfl) hrun)

/-- A packet of 8000 bits, of which a grant has cut 3000 off. -/
theorem pdcp_conserves_bits_cut :
    ∃ s : PdcpLayer CapturedPacketHandler, (captured {} 0 {} (35 / 100)).exec 5
        [.env ⟨1000, 7, .ect0, []⟩, .step (1 / 1000) fun _ => 1 / 1000,
          .handlePkt 3000 5 0 0, .release] = some s ∧
      s.ipBuffer.pktList.map IpPkt.size = [5000] ∧ s.packetH.outPkts.map IpPkt.size = [3000] ∧
      s.ConservesBits := by
  refine Runs.exists_of_view
    (fun s => (s.ipBuffer.pktList.map IpPkt.size, s.packetH.outPkts.map IpPkt.size))
    (x := ([5000], [3000])) (by decide +kernel) fun s hs hview => ?_
  exact ⟨congrArg Prod.fst hview, congrArg Prod.snd hview,
    ((pdcp_conserves_bits {} 0 {} (35 / 100)).2 _).2 5 s hs⟩

end PdcpLayer

end NetworkEmulator
