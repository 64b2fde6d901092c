/-
Runs in which no packet is refused at admission.

`Admits` says of one event, and the state it meets, that the IP buffer has room for all
that comes in.  What every operation of a handler but `drop_ingress_pkt` keeps, such runs
keep.  For generated packets that settles it: a refused packet is one the handler is done
with and never answers, and without one the verdicts depend on the fragments alone.
-/
import NetworkEmulator.Proofs.Margin

namespace NetworkEmulator

namespace PdcpLayer

variable {H Env In : Type} [PacketHandler H Env In]

/-- The IP buffer has room for all packets an event takes in. -/
def Admits (s : PdcpLayer H) : Event Env In → Prop
  | .step t i =>
    let pkts := (PacketHandler.base (s.advance t i).packetH).ingressPkts
    pkts = [] ∨ s.ipBuffer.currentSize + weight IpPkt.size pkts ≤ s.ipBuffer.maxSize
  | _ => True

instance (s : PdcpLayer H) : (e : Event Env In) → Decidable (s.Admits e)
  | .step t i => inferInstanceAs (Decidable
      ((PacketHandler.base (s.advance t i).packetH).ingressPkts = [] ∨ _ ≤ s.ipBuffer.maxSize))
  | .env _ | .handlePkt .. | .release => inferInstanceAs (Decidable True)

/-- A packet that fits is admitted. -/
private theorem offer_fits {s : PdcpLayer H} {p : IpPkt}
    (hfits : s.ipBuffer.currentSize + p.size ≤ s.ipBuffer.maxSize) :
    s.offer p = { s with ipBuffer := (s.ipBuffer.addPkt p).2 } := by
  obtain ⟨hok, -⟩ := IpBuffer.addPkt_fits hfits
  rcases offer_cases s p with ⟨-, hoffer⟩ | ⟨hno, -⟩
  · exact hoffer
  · exact absurd (hok.symm.trans hno) (by simp)

/-! ### What no operation but `drop_ingress_pkt` changes -/

/-- What a handler keeps unless a packet is refused. -/
structure Kept (J : H → Prop) : Prop where
  receive : ∀ h e, J h → J (PacketHandler.receive h e)
  step : ∀ h t, J h → J (PacketHandler.step h t)
  ingest : ∀ h t i, J h → J (PacketHandler.ingest h t i).1
  pop : ∀ h p h', PacketHandler.popIngressPkt h = some (p, h') → J h → J h'
  recordError : ∀ h x, J h → J (PacketHandler.recordError h x)
  push : ∀ h b, J h → J (PacketHandler.push h b)
  drop : ∀ h b, J h → J (PacketHandler.drop h b)
  release : ∀ h, J h → J (PacketHandler.release h).1

namespace Kept

variable {J : H → Prop}

/-- Giving a block up is no refusal. -/
private theorem dropped (hJ : Kept J) (h : H) (bits : ℚ) (b : HarqPkt) (hh : J h) :
    J (PacketHandler.drop (PacketHandler.recordError h bits) b) :=
  hJ.drop _ _ (hJ.recordError _ _ hh)

private theorem handlePkt (hJ : Kept J) {fuel : ℕ} {s s' : PdcpLayer H} {bits : ℚ} {mcs : ℤ}
    {sinr distance sent : ℚ} (h : J s.packetH)
    (hrun : s.handlePkt fuel bits mcs sinr distance = some (sent, s')) : J s'.packetH := by
  rcases handlePkt_rule (.of_packetH hJ.dropped bits) h hrun with
    ⟨-, hnone⟩ | ⟨b, s₁, hsome, -, hends⟩
  · exact hnone
  · cases hends with
    | send => exact hJ.push _ b hsome
    | store | requeue => exact hsome

/-- While all that comes in fits, no packet is refused. -/
private theorem drainIngressLoop (hJ : Kept J) (n : ℕ) : ∀ s : PdcpLayer H, J s.packetH →
    (∀ p ∈ (PacketHandler.base s.packetH).ingressPkts, 0 ≤ p.size) →
    ((PacketHandler.base s.packetH).ingressPkts = [] ∨ s.ipBuffer.currentSize
      + weight IpPkt.size (PacketHandler.base s.packetH).ingressPkts ≤ s.ipBuffer.maxSize) →
      J (s.drainIngressLoop n).packetH := by
  induction n with
  | zero => intro s h _ _; exact h
  | succ n ih =>
      intro s h hsize hfits
      simp only [PdcpLayer.drainIngressLoop]
      split
      · exact h
      · rename_i p h' hpop
        obtain ⟨hin, -⟩ := popIngressPkt_intake hpop
        rw [hin] at hsize hfits
        simp only [weight_cons, reduceCtorEq, false_or] at hfits
        have hrest : ∀ q ∈ (PacketHandler.base h').ingressPkts, 0 ≤ q.size :=
          fun q hq => hsize q (List.mem_cons_of_mem _ hq)
        have hnonneg := weight_nonneg hrest
        have hfirst : s.ipBuffer.currentSize + p.size ≤ s.ipBuffer.maxSize := by linarith
        obtain ⟨-, hcur, hmax⟩ := IpBuffer.addPkt_fits hfirst
        rw [offer_fits (s := { s with packetH := h' }) hfirst]
        refine ih _ (hJ.pop _ _ _ hpop h) hrest (Or.inr ?_)
        simp only
        rw [hcur, hmax]
        linarith

/-- **What the operations keep, an event that refuses nothing keeps.** -/
theorem apply (hJ : Kept J) {fuel : ℕ} {s s' : PdcpLayer H} {e : Event Env In}
    (hsize : ∀ p ∈ (PacketHandler.base s.packetH).ingressPkts, 0 ≤ p.size)
    (hadm : s.Admits e) (h : J s.packetH) (he : s.apply fuel e = some s') : J s'.packetH := by
  cases e with
  | env e => obtain rfl := Option.some.inj he; exact hJ.receive _ _ h
  | step t i =>
      obtain rfl := Option.some.inj he
      have hadv : J (s.advance t i).packetH := hJ.ingest _ _ _ (hJ.step _ _ h)
      have hpos : ∀ p ∈ (PacketHandler.base (s.advance t i).packetH).ingressPkts, 0 ≤ p.size := by
        obtain ⟨new, hin, -, hfresh⟩ :=
          PacketHandler.ingest_fresh (PacketHandler.step s.packetH t) t i
        intro p hp
        change p ∈ (PacketHandler.base
          (PacketHandler.ingest (PacketHandler.step s.packetH t) t i).1).ingressPkts at hp
        rw [hin, PacketHandler.base_step] at hp
        exact (List.mem_append.mp hp).elim (hsize p) fun hp => (hfresh p hp).nonneg
      exact (CleanupRules.of_packetH hJ.dropped).cleanup (hJ.drainIngressLoop _ _ hadv hpos hadm)
  | handlePkt bits mcs sinr distance =>
      obtain ⟨⟨sent, s₁⟩, hr, rfl⟩ := Option.map_eq_some_iff.mp he
      exact hJ.handlePkt h hr
  | release => obtain rfl := Option.some.inj he; exact hJ.release _ h

end Kept

end PdcpLayer

/-! ### What a refusal leaves -/

namespace SimulatedPacketHandler

/-- How many fragments of packet `u` are in the list. -/
def fragments (u : UInt32) (l : List Settled) : ℕ := (l.map fun x => x.pkt.uid).count u

/-- Without bits accounted for there was no fragment. -/
theorem fragments_eq_zero {u : UInt32} {l : List Settled}
    (hpos : ∀ x ∈ l, x.pkt.uid = u → 0 < x.pkt.size) (hzero : accounted u l ≤ 0) :
    fragments u l = 0 := by
  refine List.count_eq_zero.mpr fun hu => ?_
  obtain ⟨x, hx, rfl⟩ := List.mem_map.mp hu
  have hnonneg : ∀ p ∈ l.map Settled.pkt, 0 ≤ IpPkt.bitsOf x.pkt.uid p := by
    intro p hp
    obtain ⟨y, hy, rfl⟩ := List.mem_map.mp hp
    exact bitsOf_nonneg (hpos y hy)
  have hle := le_weight hnonneg (List.mem_map_of_mem hx)
  rw [IpPkt.bitsOf, if_pos rfl] at hle
  exact absurd (hle.trans hzero) (not_le.mpr (hpos x hx rfl))

theorem fragments_append (u : UInt32) (l l' : List Settled) :
    fragments u (l ++ l') = fragments u l + fragments u l' := by
  simp [fragments, List.count_append]

/-- The handler has finished with more fragments, each good for one verdict at most. -/
def Grows (h h' : SimulatedPacketHandler) : Prop :=
  ∃ more, h'.settled = h.settled ++ more ∧ ∀ u, h'.verdicts u ≤ h.verdicts u + fragments u more

theorem Grows.of_same {h h' : SimulatedPacketHandler} (hs : h'.settled = h.settled)
    (hv : h'.verdictLog = h.verdictLog) : Grows h h' :=
  ⟨[], by simp [hs], fun u => by simp [verdicts, hv]⟩

theorem Grows.trans {h h' h'' : SimulatedPacketHandler} (hg : Grows h h') (hg' : Grows h' h'') :
    Grows h h'' := by
  obtain ⟨more, hs, hv⟩ := hg
  obtain ⟨more', hs', hv'⟩ := hg'
  refine ⟨more ++ more', by rw [hs', hs, List.append_assoc], fun u => ?_⟩
  have hfirst := hv u
  have hsecond := hv' u
  rw [fragments_append]
  omega

private theorem updatePendingPacket_grows (h : SimulatedPacketHandler) (p : IpPkt) (d : Bool) :
    Grows h (h.updatePendingPacket p d) := by
  refine ⟨[⟨p, d⟩], updatePendingPacket_settled h p d, fun u => ?_⟩
  unfold updatePendingPacket verdicts fragments
  simp only
  split <;> simp [PacketHandlerBase.verdict, PacketHandlerBase.settle, List.count_append]

private theorem updateAll_grows (d : Bool) (ps : List IpPkt) (h : SimulatedPacketHandler) :
    Grows h (h.updateAll d ps) :=
  updateAll_rule (P := Grows h) (fun p d hg => hg.trans (updatePendingPacket_grows _ p d)) d ps
    (.of_same rfl rfl)

private theorem releaseLoop_grows (bs : List HarqPkt) (h : SimulatedPacketHandler)
    (r : PacketHandlerBase.ReleaseTotals) : Grows h (releaseLoop bs h r).1 :=
  releaseLoop_rule (P := Grows h) (fun p d hg => hg.trans (updatePendingPacket_grows _ p d)) bs r
    (.of_same rfl rfl)

private theorem ingest_grows (h : SimulatedPacketHandler) (t bits : ℚ) :
    Grows h (h.ingest t bits).1 :=
  ingest_rule (P := Grows h) (fun _ _ _ hg => hg.trans (.of_same rfl rfl)) (.of_same rfl rfl)
    t bits

private theorem popIngressPkt_grows {h h' : SimulatedPacketHandler} {p : IpPkt}
    (hpop : PacketHandler.popIngressPkt h = some (p, h')) : Grows h h' := by
  obtain ⟨rest, -, rfl⟩ := PacketHandler.popIngressPkt_eq_some hpop
  exact .of_same rfl rfl

private theorem dropIngressPkt_grows (h : SimulatedPacketHandler) (p : IpPkt) :
    Grows h (h.dropIngressPkt p) := ⟨[⟨p, true⟩], rfl, fun _ => Nat.le_add_right _ _⟩

private theorem dropped_grows (h : SimulatedPacketHandler) (bits : ℚ) (b : HarqPkt) :
    Grows h (PacketHandler.drop (PacketHandler.recordError h bits) b) := updateAll_grows _ _ _

end SimulatedPacketHandler

open SimulatedPacketHandler in
theorem Move.grows {k : MoveKind} {c c' : Custody SimulatedPacketHandler} (hm : Move c k c') :
    Grows c.packetH c'.packetH := by
  cases hm with
  | receive e => exact e.elim
  | ingest t bits => exact ingest_grows _ _ _
  | enter hpop => exact popIngressPkt_grows hpop
  | refuse hpop => exact (popIngressPkt_grows hpop).trans (dropIngressPkt_grows _ _)
  | takeDropped | drop => exact updateAll_grows _ _ _
  | release => exact (releaseLoop_grows _ _ _).trans (.of_same rfl rfl)
  | tick | recordError | push | fetch | unstore | store | discard => exact .of_same rfl rfl

namespace SimulatedPacketHandler

/-- No packet has more verdicts than fragments. -/
def Lawful (h : SimulatedPacketHandler) : Prop := ∀ u, h.verdicts u ≤ fragments u h.settled

/-- Packet `q` was refused whole: the handler is done with it, without a verdict for that. -/
def Refused (q : IpPkt) (h : SimulatedPacketHandler) : Prop :=
  ∃ pre post, h.settled = pre ++ ⟨q, true⟩ :: post ∧
    h.verdicts q.uid ≤ fragments q.uid pre + fragments q.uid post

theorem Lawful.grows {h h' : SimulatedPacketHandler} (hl : h.Lawful) (hg : Grows h h') :
    h'.Lawful := by
  obtain ⟨more, hs, hv⟩ := hg
  intro u
  have hmore := hv u
  have hlaw := hl u
  rw [hs, fragments_append]
  omega

theorem Refused.grows {q : IpPkt} {h h' : SimulatedPacketHandler} (hr : Refused q h)
    (hg : Grows h h') : Refused q h' := by
  obtain ⟨pre, post, hsplit, hle⟩ := hr
  obtain ⟨more, hs, hv⟩ := hg
  refine ⟨pre, post ++ more, by rw [hs, hsplit, List.append_assoc, List.cons_append], ?_⟩
  have hmore := hv q.uid
  rw [fragments_append]
  omega

private theorem Lawful.refused {h : SimulatedPacketHandler} (hl : h.Lawful) (q : IpPkt) :
    Refused q (h.dropIngressPkt q) := ⟨h.settled, [], rfl, hl q.uid⟩

end SimulatedPacketHandler

open SimulatedPacketHandler

namespace PdcpLayer

/-- A packet stays refused, whatever the layer does. -/
private theorem refused_moves {q : IpPkt} {c c' : Custody SimulatedPacketHandler}
    (h : Moves c c') (href : Refused q c.packetH) : Refused q c'.packetH :=
  moves_inv (I := fun c => Refused q c.packetH) (fun hm hr => hr.grows hm.grows) h href

/-- When not all that comes in fits, a packet is refused. -/
private theorem drainIngressLoop_refuses (n : ℕ) : ∀ s : PdcpLayer SimulatedPacketHandler,
    s.packetH.ingressPkts.length ≤ n → s.packetH.Lawful → s.packetH.ingressPkts ≠ [] →
    s.ipBuffer.maxSize < s.ipBuffer.currentSize + weight IpPkt.size s.packetH.ingressPkts →
      ∃ q ∈ s.packetH.ingressPkts, Refused q (s.drainIngressLoop n).packetH := by
  induction n with
  | zero =>
      intro s hlen _ hsome
      exact absurd (List.length_eq_zero_iff.mp (Nat.le_zero.mp hlen)) hsome
  | succ n ih =>
      intro s hlen hlaw hsome hfull
      simp only [drainIngressLoop]
      split
      · rename_i hpop
        unfold PacketHandler.popIngressPkt at hpop
        split at hpop
        · exact absurd ‹_› hsome
        · cases hpop
      · rename_i p h hpop
        have hin : s.packetH.ingressPkts = p :: h.ingressPkts := (popIngressPkt_intake hpop).1
        have hlaw' : h.Lawful := hlaw.grows (popIngressPkt_grows hpop)
        rw [hin] at hlen hfull ⊢
        rw [weight_cons] at hfull
        by_cases hfits : s.ipBuffer.currentSize + p.size ≤ s.ipBuffer.maxSize
        · obtain ⟨-, hcur, hmax⟩ := IpBuffer.addPkt_fits hfits
          rw [offer_fits (s := { s with packetH := h }) hfits]
          have hmore : h.ingressPkts ≠ [] := by
            intro hnil
            rw [hnil, weight_nil] at hfull
            linarith
          obtain ⟨q, hq, href⟩ := ih { s with packetH := h, ipBuffer := (s.ipBuffer.addPkt p).2 }
            (Nat.le_of_succ_le_succ hlen) hlaw' hmore (by simp only; rw [hcur, hmax]; linarith)
          exact ⟨q, List.mem_cons_of_mem _ hq, href⟩
        · refine ⟨p, List.mem_cons_self .., ?_⟩
          have hno := (IpBuffer.addPkt_refused s.ipBuffer p).1.mpr (not_le.mp hfits)
          have hfirst : Refused p (({ s with packetH := h } :
              PdcpLayer SimulatedPacketHandler).offer p).packetH := by
            rcases offer_cases { s with packetH := h } p with ⟨hok, -⟩ | ⟨-, hoffer⟩
            · exact absurd (hok.symm.trans hno) (by simp)
            · rw [hoffer]
              exact hlaw'.refused p
          exact refused_moves ((stepRules_moves _).drainIngressLoop n .refl) hfirst

/-- The packets in the ingress queue are whole and have no negative size. -/
private theorem ingress_fresh {s : PdcpLayer SimulatedPacketHandler} (h : Intake (s.custody none)) :
    ∀ p ∈ s.packetH.ingressPkts, p.Fresh := fun p hp => h.fresh p (h.waiting.subset hp)

/-- An event that does not admit all that comes in refuses a whole packet. -/
private theorem apply_refuses {fuel : ℕ} {s s' : PdcpLayer SimulatedPacketHandler}
    {e : Event Empty ℚ} (hlaw : s.packetH.Lawful) (hin : Intake (s.custody none))
    (hno : ¬s.Admits e) (he : s.apply fuel e = some s') :
    ∃ q, q.size = q.originalSize ∧ Refused q s'.packetH := by
  cases e with
  | step t bits =>
      obtain rfl := Option.some.inj he
      obtain ⟨hsome, hfull⟩ := not_or.mp hno
      have hadv := advance_moves s t bits
      obtain ⟨q, hq, href⟩ := drainIngressLoop_refuses _ (s.advance t bits) le_rfl
        (moves_inv (I := fun c => c.packetH.Lawful) (fun hm hl => hl.grows hm.grows) hadv hlaw)
        hsome (not_le.mp hfull)
      refine ⟨q, (ingress_fresh (moves_inv Intake.move hadv hin) q hq).whole, ?_⟩
      have hrules : CleanupRules fun _ (s : PdcpLayer SimulatedPacketHandler) =>
          Refused q s.packetH := .of_packetH fun h bits b hr => hr.grows (dropped_grows h bits b)
      exact hrules.cleanup href
  | env e => exact absurd trivial hno
  | handlePkt bits mcs sinr distance => exact absurd trivial hno
  | release => exact absurd trivial hno

/-- A run with such an event ends with a refused packet. -/
private theorem exec_refuses {fuel : ℕ} {es : List (Event Empty ℚ)} :
    ∀ {s s' : PdcpLayer SimulatedPacketHandler}, s.packetH.Lawful → Intake (s.custody none) →
      ¬Runs.Along (apply fuel) Admits s es → s.exec fuel es = some s' →
        ∃ q, q.size = q.originalSize ∧ Refused q s'.packetH := by
  induction es with
  | nil => intro s s' _ _ hno; exact absurd trivial hno
  | cons e es ih =>
      intro s s' hlaw hin hno hrun
      obtain ⟨s₁, he, hrest⟩ := Runs.runAll_cons.mp hrun
      by_cases hadm : s.Admits e
      · have hno₁ : ¬Runs.Along (apply fuel) Admits s₁ es := fun h =>
          hno ⟨hadm, fun s₂ hs₂ => Option.some.inj (he.symm.trans hs₂) ▸ h⟩
        exact ih (apply_inv (I := fun c => c.packetH.Lawful) (fun hm hl => hl.grows hm.grows) he
          hlaw) (apply_inv Intake.move he hin) hno₁ hrest
      · obtain ⟨q, hwhole, href⟩ := apply_refuses hlaw hin hadm he
        refine ⟨q, hwhole, ?_⟩
        exact exec_inv (I := fun c => Refused q c.packetH) (fun hm hr => hr.grows hm.grows) href
          hrest

/-- A run without one keeps the records those of the fragments. -/
private theorem exec_replayed {fuel : ℕ} {es : List (Event Empty ℚ)}
    {s s' : PdcpLayer SimulatedPacketHandler} (hrep : s.packetH.Replayed)
    (hin : Intake (s.custody none)) (hadm : Runs.Along (apply fuel) Admits s es)
    (hrun : s.exec fuel es = some s') : s'.packetH.Replayed := by
  have hkept : Kept Replayed :=
    { receive := fun _ e => e.elim
      step := fun _ _ hr => ⟨hr.pending, hr.verdicts⟩
      ingest := fun _ _ _ hr => hr.ingest _ _
      pop := fun _ _ _ hpop hr => hr.popIngressPkt hpop
      recordError := fun _ _ hr => ⟨hr.pending, hr.verdicts⟩
      push := fun _ _ hr => ⟨hr.pending, hr.verdicts⟩
      drop := fun _ _ hr => hr.updateAll _
      release := fun _ hr => ⟨(hr.releaseLoop _ _).pending, (hr.releaseLoop _ _).verdicts⟩ }
  refine (Runs.runAll_inv (I := fun s => s.packetH.Replayed ∧ Intake (s.custody none))
    (fun s e s' hI hadm he => ⟨?_, apply_inv Intake.move he hI.2⟩) ⟨hrep, hin⟩ hadm hrun).1
  exact hkept.apply (fun p hp => (ingress_fresh hI.2 p hp).nonneg) hadm hI.1 he

end PdcpLayer

/-! ### One verdict each -/

namespace SimulatedPacketHandler

/-- Every packet has had exactly one verdict, and leaves no record, once all its bits have
been delivered, dropped or refused, and has had none before. -/
def OneVerdictEach (h : SimulatedPacketHandler) : Prop :=
  ∀ q ∈ h.ingested,
    (accounted q.uid h.settled = q.originalSize →
      h.verdicts q.uid = 1 ∧ h.pendingResults q.uid = none) ∧
    (accounted q.uid h.settled ≠ q.originalSize → h.verdicts q.uid = 0)

/-- No fragment the handler has finished with left more than nothing, but no more than the
rounding margin, of its packet. -/
def SparesMargin (h : SimulatedPacketHandler) : Prop :=
  ∀ q ∈ h.ingested, Spares q.uid q.originalSize h.settled

instance (h : SimulatedPacketHandler) : Decidable h.OneVerdictEach := by
  unfold OneVerdictEach
  infer_instance

instance (h : SimulatedPacketHandler) : Decidable h.SparesMargin := by
  unfold SparesMargin
  infer_instance

end SimulatedPacketHandler

namespace PdcpLayer

section Run

variable {cfg : PacketHandlerConfig} {verbosity : ℤ} {seeds : Seeds} {budgetS : ℚ} {fuel : ℕ}
  {es : List (Event Empty ℚ)} {s : PdcpLayer SimulatedPacketHandler}
  (hrun : (simulated cfg verbosity seeds budgetS).exec fuel es = some s)
  (hids : (s.packetH.ingested.map IpPkt.uid).Nodup)

include hrun

private theorem simulated_intake : Intake (s.custody none) :=
  exec_inv Intake.move ⟨List.suffix_refl _, by rintro p ⟨⟩⟩ hrun

private theorem size_pos {q : IpPkt} (hq : q ∈ s.packetH.ingested) : 0 < q.originalSize := by
  rw [← ((simulated_intake hrun).fresh q hq).whole]
  exact simulated_pos cfg verbosity seeds budgetS hrun q hq

include hids

/-- What the handler has finished with of a packet are parts of that packet. -/
private theorem fragmentsOf {q : IpPkt} (hq : q ∈ s.packetH.ingested) :
    FragmentsOf q.uid q.originalSize s.packetH.settled := by
  have hdone : ∀ x ∈ s.packetH.settled, x.pkt ∈ (s.custody none).all := fun x hx =>
    List.mem_append_right _ (List.mem_append_right _ (List.mem_map_of_mem hx))
  have hpos := exec_pos rfl hrun (simulated_pos cfg verbosity seeds budgetS hrun)
  have hstems := exec_inv (I := Stems) Stems.move ⟨by rintro p ⟨⟩, by rintro p ⟨⟩⟩ hrun
  have hbits := exec_inv (I := Accounted) Accounted.move
    ⟨by rintro p ⟨⟩, fun u => rfl⟩ hrun
  refine ⟨fun x hx _ => hpos _ (hdone x hx), fun x hx hu => ?_, ?_⟩
  · obtain ⟨q', hq', hu', -, horig, -⟩ := hstems.all _ (hdone x hx)
    rw [← horig, List.inj_on_of_nodup_map hids hq' hq (hu'.trans hu)]
  · have htotal := hbits.total q.uid
    have hnonneg : 0 ≤ weight (IpPkt.bitsOf q.uid)
        ((s.custody none).upstream ++ Keeper.held s.packetH) := by
      refine weight_nonneg fun p hp => bitsOf_nonneg fun _ => hpos p ?_
      simp only [Custody.all, Keeper.kept, ← List.append_assoc]
      exact List.mem_append_left _ hp
    have hkey : weight (IpPkt.originalBitsOf q.uid) s.packetH.ingested = q.originalSize :=
      weight_key IpPkt.uid IpPkt.originalSize hids hq
    change weight _ (s.custody none).all = weight _ s.packetH.ingested at htotal
    rw [hkey, Custody.all, Keeper.kept, ← List.append_assoc, weight_append] at htotal
    change weight _ ((s.custody none).upstream ++ Keeper.held s.packetH)
      + accounted q.uid s.packetH.settled = _ at htotal
    linarith

/-- A refused packet has no verdict. -/
private theorem not_oneVerdictEach {q : IpPkt} (hwhole : q.size = q.originalSize)
    (href : Refused q s.packetH) : ¬s.packetH.OneVerdictEach := by
  intro hone
  obtain ⟨pre, post, hsplit, hle⟩ := href
  have hmem : (⟨q, true⟩ : Settled) ∈ s.packetH.settled := by rw [hsplit]; simp
  have hstems := exec_inv (I := Stems) Stems.move ⟨by rintro p ⟨⟩, by rintro p ⟨⟩⟩ hrun
  obtain ⟨q', hq', hu, -, horig, -⟩ := hstems.all q
    (List.mem_append_right _ (List.mem_append_right _ (List.mem_map.mpr ⟨_, hmem, rfl⟩)))
  have hfrag := fragmentsOf hrun hids hq'
  rw [hu, horig] at hfrag
  have hbefore : ∀ x ∈ pre, x.pkt.uid = q.uid → 0 < x.pkt.size := fun x hx =>
    hfrag.pos x (by rw [hsplit]; exact List.mem_append_left _ hx)
  have hafter : ∀ x ∈ post, x.pkt.uid = q.uid → 0 < x.pkt.size := fun x hx =>
    hfrag.pos x (by rw [hsplit]; exact List.mem_append_right _ (List.mem_cons_of_mem _ hx))
  have hsum : accounted q.uid s.packetH.settled
      = accounted q.uid pre + (q.originalSize + accounted q.uid post) := by
    rw [hsplit, accounted, List.map_append, weight_append, List.map_cons, weight_cons,
      IpPkt.bitsOf, if_pos rfl, hwhole]
    rfl
  -- the packet was refused with all of its bits, so nothing else of it was finished with
  have hmost := hfrag.most
  have hpre := accounted_nonneg hbefore
  have hpost := accounted_nonneg hafter
  have hnone : s.packetH.verdicts q.uid = 0 := by
    rw [fragments_eq_zero hbefore (by linarith), fragments_eq_zero hafter (by linarith)] at hle
    omega
  have hall := (hone q' hq').1 (by rw [hu, horig]; linarith)
  rw [hu, hnone] at hall
  exact absurd hall.1 (by omega)

end Run

end PdcpLayer

end NetworkEmulator
