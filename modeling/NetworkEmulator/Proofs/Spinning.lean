/-
Grants on which `handle_pkt` ends its loop.

The loop tests the grant it was given and `get_pkts` works on the grant rounded down.
From one bit on, every pass that goes on takes bits out of the queue: it hands some out,
or the AQM drops a packet.  A grant below one bit is rounded down to nothing, the pass
leaves the queue as it was, and the next one does the same.
-/
import NetworkEmulator.Proofs.Flow
import NetworkEmulator.Proofs.Occupancy
import NetworkEmulator.Proofs.Passing

namespace NetworkEmulator

/-- Cutting never lowers what the pieces count together. -/
private theorem respects_load_cut :
    Respects Retag (Cut ⊤) Never (fun _ => True) (· ≥ ·) IpPkt.load where
  relabel _ hr := by cases hr <;> exact le_rfl
  cut {p _ _} _ hc := by
    cases hc with
    | @mk bits _ _ _ =>
        have hceil : ⌈p.size⌉₊ ≤ ⌈p.size - bits⌉₊ + ⌈bits⌉₊ := by
          have hsum := Nat.ceil_add_le (p.size - bits) bits
          rwa [sub_add_cancel] at hsum
        simp only [IpPkt.load, IpPkt.piece, ge_iff_le]
        omega
  join _ _ hj := hj.elim

/-- Packets of a positive size are cut into such packets. -/
private theorem inherited_pos : Inherited Retag (Cut ⊤) Never fun p => 0 < p.size where
  relabel h hr := by cases hr <;> exact h
  cut _ hc := by
    obtain ⟨hpos, hlt, -⟩ := hc
    exact ⟨sub_pos.mpr hlt, hpos⟩
  join _ _ hj := hj.elim

/-- A shelf that counts less than before has fewer bits waiting. -/
private theorem Shelf.Yields.fewer {s s' : Shelf} {out : List IpPkt} (h : Yields ⊤ s s' out)
    (hpos : ∀ p ∈ s.waiting, 0 < p.size) (hload : s'.load < s.load) :
    weight IpPkt.size s'.waiting < weight IpPkt.size s.waiting := by
  have hsize := h.size
  obtain ⟨drops, hd, -, -, hr⟩ := h
  have hall := hr.forall_mem inherited_pos hpos
  rw [hd, weight_append] at hsize
  -- if nothing was dropped or handed out, the packets left would count at least as much
  have hsome : ∃ p, p ∈ drops ++ out := by
    by_contra hnone
    have hempty : drops ++ out = [] := List.eq_nil_iff_forall_not_mem.mpr (not_exists.mp hnone)
    have hge := hr.weight_rel (r := (· ≥ ·)) (fun _ => le_rfl) (fun hxy hyz => le_trans hyz hxy)
      (fun z hxy => Nat.add_le_add_right hxy z) (.trivial ..) respects_load_cut
      fun _ _ => trivial
    rw [List.append_assoc, hempty, List.append_nil] at hge
    exact absurd hload (not_lt.mpr hge)
  obtain ⟨p, hp⟩ := hsome
  have hnonneg : ∀ q ∈ drops ++ out, 0 ≤ q.size := fun q hq => by
    refine (hall q ?_).le
    rw [List.append_assoc]
    exact List.mem_append_right _ hq
  have hle : p.size ≤ weight IpPkt.size (drops ++ out) := le_weight hnonneg hp
  have hp₀ : 0 < p.size := by
    refine hall p ?_
    rw [List.append_assoc]
    exact List.mem_append_right _ hp
  rw [weight_append] at hle
  linarith

namespace IpBuffer

/-- The bits queued in the buffer. -/
def queuedBits (b : IpBuffer) : ℚ := weight IpPkt.size b.shelf.waiting

/-- A grant of at least one bit takes bits out of a buffer that holds something. -/
private theorem getPkts_queuedBits {b : IpBuffer} {grant : ℚ} (hgrant : 1 ≤ grant)
    (hhas : b.backendHasPkts = true) (hpos : ∀ p ∈ b.shelf.waiting, 0 < p.size) {out : HarqPkt} :
    (b.getPkts grant out).1.queuedBits < b.queuedBits := by
  obtain ⟨new, hyields, -⟩ := getPkts_filled (G := ⊤) (fun _ => trivial) b grant out
    fun _ _ => trivial
  exact hyields.fewer hpos (getPkts_load hgrant hhas out)

private theorem getPkts_pos {b : IpBuffer} (hpos : ∀ p ∈ b.shelf.waiting, 0 < p.size) (grant : ℚ)
    (out : HarqPkt) : ∀ p ∈ (b.getPkts grant out).1.shelf.waiting, 0 < p.size := by
  obtain ⟨new, hyields, -⟩ := getPkts_filled (G := ⊤) (fun _ => trivial) b grant out
    fun _ _ => trivial
  exact (hyields.forall_mem inherited_pos hpos).1

end IpBuffer

namespace PdcpLayer

variable {H Env In : Type} [PacketHandler H Env In]

/-! ### One pass -/

/-- A pass of the loop of `handle_pkt` that goes on: the block came out empty, or it has
expired. -/
inductive Pass (bits : ℚ) (mcs : ℤ) (distance : ℚ) (s : PdcpLayer H) : PdcpLayer H → Prop
  | empty (hgo : 0 < bits ∧ s.hasPkts)
      (hnone : (s.fetch bits mcs (truncToInt distance)).1.bits ≤ 0) :
      Pass bits mcs distance s (s.fetch bits mcs (truncToInt distance)).2
  | expired {b : HarqPkt} {s₁ : PdcpLayer H} (hgo : 0 < bits ∧ s.hasPkts)
      (hfetch : s.fetch bits mcs (truncToInt distance) = (b, s₁)) (hsome : ¬b.bits ≤ 0)
      (hold : s₁.isExpired b.ipT) : Pass bits mcs distance s
        { s₁.dropHarqPkt b with expiredLog := s₁.expiredLog ++ [(s₁.oldestAllowedIpT, b)] }

variable {bits : ℚ} {mcs : ℤ} {sinr distance : ℚ} {s s' : PdcpLayer H}

/-- Such a pass is what the loop makes of `s`. -/
theorem Pass.handleLoop (h : Pass bits mcs distance s s') (n : ℕ) :
    handleLoop bits mcs sinr distance (n + 1) s = handleLoop bits mcs sinr distance n s' := by
  rw [PdcpLayer.handleLoop]
  cases h with
  | empty hgo hnone =>
      rw [if_pos hgo]
      simp only
      rw [if_pos hnone]
  | expired hgo hfetch hsome hold =>
      rw [if_pos hgo, hfetch]
      simp only
      rw [if_neg hsome, if_pos hold]

/-- What a pass leaves: the HARQ buffer, and what `get_pkts` left of the queue. -/
private theorem Pass.leaves (h : Pass bits mcs distance s s') :
    (0 < bits ∧ s.hasPkts) ∧ s'.harqBuffer = s.harqBuffer ∧
      ∃ out, s'.ipBuffer.shelf.waiting = (s.ipBuffer.getPkts bits out).1.shelf.waiting := by
  obtain ⟨dropped, size, hd, heq⟩ := fetch_eq s bits mcs (truncToInt distance)
  cases h with
  | empty hgo _ =>
      refine ⟨hgo, fetch_harq .., ?_⟩
      rw [heq]
      exact ⟨s.newBlock s.ipBuffer.getOldestTimestamp mcs (truncToInt distance), rfl⟩
  | expired hgo hfetch _ _ =>
      rw [hfetch] at heq
      simp only at heq
      subst heq
      exact ⟨hgo, rfl, _, rfl⟩

/-- A grant below one bit is rounded down to nothing, and the pass leaves the packets. -/
private theorem Pass.of_tiny (mcs : ℤ) (distance : ℚ) (hbits : 0 < bits) (htiny : bits < 1)
    (hhas : s.ipBuffer.hasPkts) : ∃ s', Pass bits mcs distance s s' ∧ s'.ipBuffer.hasPkts := by
  have hfloor : (⌊bits⌋ : ℤ) ≤ 0 := Int.lt_add_one_iff.mp (Int.floor_lt.mpr (by simpa using htiny))
  have hnone : (s.fetch bits mcs (truncToInt distance)).1.bits ≤ 0 := by
    rw [fetch_block, IpBuffer.getPkts_tiny hfloor]
  refine ⟨_, .empty ⟨hbits, by simp [hasPkts, hhas]⟩ hnone, ?_⟩
  obtain ⟨dropped, size, hd, heq⟩ := fetch_eq s bits mcs (truncToInt distance)
  rw [heq, IpBuffer.getPkts_tiny hfloor]
  exact hhas

/-- On such a grant the loop never ends. -/
private theorem handleLoop_spins (hbits : 0 < bits) (htiny : bits < 1) (n : ℕ) :
    ∀ s : PdcpLayer H, s.ipBuffer.hasPkts → handleLoop bits mcs sinr distance n s = none := by
  induction n with
  | zero => intro s _; rfl
  | succ n ih =>
      intro s hhas
      obtain ⟨s', hpass, hhas'⟩ := Pass.of_tiny mcs distance hbits htiny hhas
      rw [hpass.handleLoop]
      exact ih s' hhas'

/-- Neither does `handle_pkt`, unless it does not come to its loop. -/
private theorem handlePkt_spins (hbits : 0 < bits) (htiny : bits < 1)
    (hready : s.harqBuffer.isPktReady = false) (hhas : s.ipBuffer.hasPkts = true) (fuel : ℕ) :
    s.handlePkt fuel bits mcs sinr distance = none := by
  rw [handlePkt, if_neg (by simp [hready]), if_pos (by simp [hasPkts, hhas])]
  exact handleLoop_spins hbits htiny fuel s hhas

/-! ### The grants on which the loop ends -/

/-- `handle_pkt` ends on this grant: with a large enough bound on its loop it returns,
and each pass of the loop that goes on takes bits out of the IP buffer. -/
structure Terminates (s : PdcpLayer H) (bits : ℚ) (mcs : ℤ) (sinr distance : ℚ) : Prop where
  returns : ∃ r, ∃ fuel₀, ∀ fuel ≥ fuel₀, s.handlePkt fuel bits mcs sinr distance = some r
  decreases : s.harqBuffer.isPktReady = false → ∀ s₁ s₂,
    Relation.ReflTransGen (Pass bits mcs distance) s s₁ → Pass bits mcs distance s₁ s₂ →
      s₂.ipBuffer.queuedBits < s₁.ipBuffer.queuedBits

/-- What every pass keeps while no HARQ block is ready. -/
private theorem passes_keep (hready : s.harqBuffer.isPktReady = false)
    (hpos : ∀ p ∈ s.ipBuffer.shelf.waiting, 0 < p.size)
    (h : Relation.ReflTransGen (Pass bits mcs distance) s s') :
    s'.harqBuffer.isPktReady = false ∧ ∀ p ∈ s'.ipBuffer.shelf.waiting, 0 < p.size := by
  induction h with
  | refl => exact ⟨hready, hpos⟩
  | tail _ hpass ih =>
      obtain ⟨-, hharq, out, hwait⟩ := hpass.leaves
      rw [hharq, hwait]
      exact ⟨ih.1, IpBuffer.getPkts_pos ih.2 bits out⟩

/-- With a grant of at least one bit, a pass takes bits out of the IP buffer. -/
private theorem Pass.decreases (hbits : 1 ≤ bits) (hready : s.harqBuffer.isPktReady = false)
    (hpos : ∀ p ∈ s.ipBuffer.shelf.waiting, 0 < p.size) (h : Pass bits mcs distance s s') :
    s'.ipBuffer.queuedBits < s.ipBuffer.queuedBits := by
  obtain ⟨hgo, -, out, hwait⟩ := h.leaves
  have hhas : s.ipBuffer.backendHasPkts = true := by
    simpa [hasPkts, hready, IpBuffer.hasPkts] using hgo.2
  rw [IpBuffer.queuedBits, hwait]
  exact IpBuffer.getPkts_queuedBits hbits hhas hpos

/-- **On which grants `handle_pkt` ends.** -/
private theorem terminates_iff (hbits : 0 < bits)
    (hpos : ∀ p ∈ s.ipBuffer.shelf.waiting, 0 < p.size) :
    s.Terminates bits mcs sinr distance ↔
      1 ≤ bits ∨ s.harqBuffer.isPktReady = true ∨ s.ipBuffer.hasPkts = false := by
  constructor
  · intro h
    by_contra hno
    obtain ⟨htiny, hready, hhas⟩ : bits < 1 ∧ s.harqBuffer.isPktReady = false ∧
        s.ipBuffer.hasPkts = true := by simpa using hno
    obtain ⟨r, fuel₀, hr⟩ := h.returns
    have hnone := hr fuel₀ le_rfl
    rw [handlePkt_spins hbits htiny hready hhas] at hnone
    cases hnone
  · intro h
    by_cases hready : s.harqBuffer.isPktReady = true
    · refine ⟨?_, fun hno => absurd hready (by simp [hno])⟩
      -- the ready block is sent or dropped, whatever the grant
      obtain ⟨r, fuel₀, hr⟩ := handlePkt_returns s le_rfl mcs sinr distance
      refine ⟨r, fuel₀, fun fuel hfuel => ?_⟩
      rw [← hr fuel hfuel, handlePkt, handlePkt, if_pos hready, if_pos hready]
    · rcases h with hone | hyes | hnone
      · refine ⟨handlePkt_returns s hone mcs sinr distance, fun hready s₁ s₂ hreach hpass => ?_⟩
        obtain ⟨hready₁, hpos₁⟩ := passes_keep hready hpos hreach
        exact hpass.decreases hone hready₁ hpos₁
      · exact absurd hyes hready
      · have hidle : s.hasPkts = false := by simp [hasPkts, hnone, hready]
        refine ⟨⟨(0, s), 0, fun fuel _ => ?_⟩, fun _ s₁ s₂ hreach hpass => ?_⟩
        · rw [handlePkt, if_neg hready, if_neg (by simp [hidle])]
        · -- the loop is not entered, so there is no pass
          rcases hreach.cases_head with rfl | ⟨s₃, hfirst, -⟩
          · exact absurd hpass.leaves.1.2 (by simp [hidle])
          · exact absurd hfirst.leaves.1.2 (by simp [hidle])

/-! ### Reachable layers -/

variable [Keeper H]

/-- While only packets of a positive size are taken in, there are no others. -/
private theorem Move.pos {k : MoveKind} {c c' : Custody H} (hm : Move c k c')
    (h : (∀ p ∈ c.ingested, 0 < p.size) → ∀ p ∈ c.all, 0 < p.size)
    (hing : ∀ p ∈ c'.ingested, 0 < p.size) : ∀ p ∈ c'.all, 0 < p.size := by
  have hP : Inherited Relabel (Cut ⊤) Join fun p => 0 < p.size :=
    { relabel := fun h hr => by rcases hr with hr | hr <;> cases hr <;> exact h
      cut := inherited_pos.cut
      join := fun h h' hj => by cases hj; exact add_pos h h' }
  exact hm.forall_all hP (fun _ => trivial) (fun _ _ => trivial) (fun p hp _ => hing p hp)
    (h fun p hp => hing p (hm.ingested_subset hp))

/-- So it is in every state of a run that starts empty. -/
theorem exec_pos {fuel : ℕ} {es : List (Event Env In)}
    (hempty : (s.custody none).all = []) (hrun : s.exec fuel es = some s')
    (hing : ∀ p ∈ (PacketHandler.base s'.packetH).ingested, 0 < p.size) :
    ∀ p ∈ (s'.custody none).all, 0 < p.size :=
  exec_inv (I := fun c : Custody H => (∀ p ∈ c.ingested, 0 < p.size) → ∀ p ∈ c.all, 0 < p.size)
    (fun hm h => Move.pos hm h) (by rw [hempty]; rintro - p ⟨⟩) hrun hing

private theorem waiting_mem_all (s : PdcpLayer H) :
    ∀ p ∈ s.ipBuffer.shelf.waiting, p ∈ (s.custody none).all := by
  intro p hp
  simp [Custody.all, Custody.upstream, custody, hp]

end PdcpLayer

namespace SimulatedPacketHandler

private theorem pushNew_pos {h : SimulatedPacketHandler} (t : ℚ) {size : ℚ} (hsize : 0 < size)
    (hing : ∀ p ∈ h.ingested, 0 < p.size) : ∀ p ∈ (h.pushNew t size).ingested, 0 < p.size := by
  intro p hp
  simp only [pushNew, PacketHandlerBase.pushIngressPkt] at hp
  rcases List.mem_append.mp hp with hp | hp
  · exact hing p hp
  · obtain rfl := List.mem_singleton.mp hp
    exact hsize

/-- `ingest` makes packets of a positive size only. -/
theorem ingest_pos (h : SimulatedPacketHandler) (t bits : ℚ)
    (hing : ∀ p ∈ h.ingested, 0 < p.size) : ∀ p ∈ (h.ingest t bits).1.ingested, 0 < p.size :=
  ingest_rule (P := fun g => ∀ p ∈ g.ingested, 0 < p.size)
    (fun t _ hsize hg => pushNew_pos t hsize hg) hing t bits

end SimulatedPacketHandler

namespace PdcpLayer

/-- Every packet a simulated layer takes in has a positive size. -/
theorem simulated_pos (cfg : PacketHandlerConfig) (verbosity : ℤ) (seeds : Seeds) (budgetS : ℚ)
    {fuel : ℕ} {es : List (Event Empty ℚ)} {s : PdcpLayer SimulatedPacketHandler}
    (hrun : (simulated cfg verbosity seeds budgetS).exec fuel es = some s) :
    ∀ p ∈ s.packetH.ingested, 0 < p.size :=
  exec_inv (I := fun c : Custody SimulatedPacketHandler => ∀ p ∈ c.ingested, 0 < p.size)
    (fun hm h => hm.forall_ingested SimulatedPacketHandler.ingest_pos h) (by rintro p ⟨⟩) hrun

/-- **Which grants `handle_pkt` ends on.**  In every reachable state of a layer, over
either handler and either backend, and for every positive grant: the loop ends, with
each pass that goes on taking bits out of the IP buffer, exactly when the grant is at
least one bit, or a HARQ block is ready, or the IP buffer is empty.  A captured packet is
taken to have a positive size. -/
theorem handlePkt_terminates_iff (cfg : PacketHandlerConfig) (verbosity : ℤ) (seeds : Seeds)
    (budgetS : ℚ) :
    (∀ fuel es s, (simulated cfg verbosity seeds budgetS).exec fuel es = some s →
      ∀ bits mcs sinr distance, 0 < bits → (s.Terminates bits mcs sinr distance ↔
        1 ≤ bits ∨ s.harqBuffer.isPktReady = true ∨ s.ipBuffer.hasPkts = false)) ∧
    ∀ fuel es s, (captured cfg verbosity seeds budgetS).exec fuel es = some s →
      (∀ p ∈ s.packetH.ingested, 0 < p.size) →
      ∀ bits mcs sinr distance, 0 < bits → (s.Terminates bits mcs sinr distance ↔
        1 ≤ bits ∨ s.harqBuffer.isPktReady = true ∨ s.ipBuffer.hasPkts = false) := by
  refine ⟨fun fuel es s hrun bits mcs sinr distance hbits => ?_,
    fun fuel es s hrun hing bits mcs sinr distance hbits => ?_⟩
  · have hpos := exec_pos rfl hrun (simulated_pos cfg verbosity seeds budgetS hrun)
    exact terminates_iff hbits fun p hp => hpos p (waiting_mem_all s p hp)
  · have hpos := exec_pos rfl hrun hing
    exact terminates_iff hbits fun p hp => hpos p (waiting_mem_all s p hp)

/-- A packet of 12000 bits is waiting: a grant of one bit is served. -/
theorem handlePkt_terminates_iff_one :
    ∃ s : PdcpLayer SimulatedPacketHandler,
      (simulated {} 0 {} (35 / 100)).exec 5 [.step (1 / 1000) 12000] = some s ∧
      s.ipBuffer.queuedBits = 12000 ∧ s.Terminates 1 5 0 0 := by
  refine Runs.exists_of_view (fun s => s.ipBuffer.queuedBits) (x := 12000) (by decide +kernel)
    fun s hs hview => ⟨hview, ?_⟩
  exact ((handlePkt_terminates_iff {} 0 {} (35 / 100)).1 5 _ s hs 1 5 0 0 one_pos).mpr
    (Or.inl le_rfl)

/-- The same layer never ends on a grant of half a bit. -/
theorem handlePkt_spins_half :
    ∃ s : PdcpLayer SimulatedPacketHandler,
      (simulated {} 0 {} (35 / 100)).exec 5 [.step (1 / 1000) 12000] = some s ∧
      ∀ fuel, s.handlePkt fuel (1 / 2) 5 0 0 = none := by
  refine Runs.exists_of_view (fun s => (s.harqBuffer.isPktReady, s.ipBuffer.hasPkts))
    (x := (false, true)) (by decide +kernel) fun s hs hview => ?_
  exact handlePkt_spins (by norm_num) (by norm_num) (congrArg Prod.fst hview)
    (congrArg Prod.snd hview)

end PdcpLayer

end NetworkEmulator
