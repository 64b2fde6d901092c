/-
One verdict per generated packet, and what the rounding margin costs.

`update_pending_packet` adds up the fragments of a packet and counts its verdict when at
most the margin, almost one bit, is missing.  A fragment that leaves that little of its
packet is answered too early, and what comes after it opens a record that is never
closed.  A packet refused at admission is not counted at all.  In every other run each
packet has one verdict, counted with the last of its bits: the records follow from the
fragments alone, so the argument is an induction on the list of fragments.
-/
import NetworkEmulator.Proofs.Conservation
import NetworkEmulator.Proofs.Spinning

namespace NetworkEmulator

namespace SimulatedPacketHandler

/-- The bits of packet `u` among what a handler has finished with. -/
def accounted (u : UInt32) (l : List Settled) : ℚ := weight (IpPkt.bitsOf u) (l.map Settled.pkt)

/-- How many verdicts packet `u` has had. -/
def verdicts (h : SimulatedPacketHandler) (u : UInt32) : ℕ := (h.verdictLog.map Prod.fst).count u

/-- No fragment of packet `u`, which came with `size` bits, leaves so little of it that it
counts as complete. -/
def Spares (u : UInt32) (size : ℚ) (l : List Settled) : Prop :=
  ∀ k ∈ l.inits, ∀ x ∈ k.getLast?, x.pkt.uid = u →
    accounted u k = size ∨ accounted u k + bitRoundMargin < size

instance (u : UInt32) (size : ℚ) (l : List Settled) : Decidable (Spares u size l) := by
  unfold Spares
  infer_instance

theorem accounted_concat (u : UInt32) (l : List Settled) (x : Settled) :
    accounted u (l ++ [x]) = accounted u l + IpPkt.bitsOf u x.pkt := by
  rw [accounted, List.map_append, weight_append, List.map_singleton, weight_singleton, accounted]

theorem spares_concat {u : UInt32} {size : ℚ} {l : List Settled} {x : Settled} :
    Spares u size (l ++ [x]) ↔ Spares u size l ∧ (x.pkt.uid = u →
      accounted u (l ++ [x]) = size ∨ accounted u (l ++ [x]) + bitRoundMargin < size) := by
  constructor
  · intro h
    refine ⟨fun k hk y hy hu => h k ?_ y hy hu, fun hu => h _ ?_ x (by simp) hu⟩
    · exact (List.mem_inits _ _).mpr (((List.mem_inits _ _).mp hk).trans (List.prefix_append l [x]))
    · exact (List.mem_inits _ _).mpr (List.prefix_refl _)
  · rintro ⟨hl, hx⟩ k hk y hy hu
    rcases List.prefix_concat_iff.mp ((List.mem_inits _ _).mp hk) with rfl | hk
    · obtain rfl : x = y := by simpa using hy
      exact hx hu
    · exact hl k ((List.mem_inits _ _).mpr hk) y hy hu

/-- The fragments of packet `u` in the list are parts of one packet of `size` bits. -/
structure FragmentsOf (u : UInt32) (size : ℚ) (l : List Settled) : Prop where
  pos : ∀ x ∈ l, x.pkt.uid = u → 0 < x.pkt.size
  original : ∀ x ∈ l, x.pkt.uid = u → x.pkt.originalSize = size
  most : accounted u l ≤ size

theorem FragmentsOf.of_concat {u : UInt32} {size : ℚ} {l : List Settled} {x : Settled}
    (h : FragmentsOf u size (l ++ [x])) : FragmentsOf u size l := by
  have hmem : ∀ y ∈ l, y ∈ l ++ [x] := fun y hy => List.mem_append_left _ hy
  refine ⟨fun y hy => h.pos y (hmem y hy), fun y hy => h.original y (hmem y hy), ?_⟩
  have hmost := h.most
  rw [accounted_concat, IpPkt.bitsOf] at hmost
  split at hmost
  · have hpos := h.pos x (by simp) ‹_›
    linarith
  · linarith

theorem bitsOf_nonneg {u : UInt32} {p : IpPkt} (h : p.uid = u → 0 < p.size) :
    0 ≤ IpPkt.bitsOf u p := by
  unfold IpPkt.bitsOf
  split
  · exact (h ‹_›).le
  · exact le_rfl

theorem accounted_nonneg {u : UInt32} {l : List Settled}
    (h : ∀ x ∈ l, x.pkt.uid = u → 0 < x.pkt.size) : 0 ≤ accounted u l := by
  refine weight_nonneg fun p hp => ?_
  obtain ⟨x, hx, rfl⟩ := List.mem_map.mp hp
  exact bitsOf_nonneg (h x hx)

/-! ### The records -/

/-- What `update_pending_packet` makes of these fragments, one after another. -/
def replay (l : List Settled) : SimulatedPacketHandler :=
  l.foldl (fun h x => h.updatePendingPacket x.pkt x.dropped) (make 0 {} 0 {})

theorem replay_concat (l : List Settled) (x : Settled) :
    replay (l ++ [x]) = (replay l).updatePendingPacket x.pkt x.dropped := by
  rw [replay, List.foldl_append]
  rfl

/-- A fragment of another packet changes neither the record nor the verdicts of `u`. -/
private theorem update_other (h : SimulatedPacketHandler) {p : IpPkt} (d : Bool) {u : UInt32}
    (hu : p.uid ≠ u) : (h.updatePendingPacket p d).pendingResults u = h.pendingResults u ∧
      (h.updatePendingPacket p d).verdicts u = h.verdicts u := by
  unfold updatePendingPacket verdicts
  simp only
  split
  · simp [Function.update_of_ne hu.symm, PacketHandlerBase.verdict, PacketHandlerBase.settle,
      List.count_append, hu]
  · simp [Function.update_of_ne hu.symm, PacketHandlerBase.settle]

/-- A fragment that completes its packet. -/
private theorem update_complete {h : SimulatedPacketHandler} {p : IpPkt} {d : Bool}
    (hc : (h.pendingAfter p d).complete = true) :
    (h.updatePendingPacket p d).pendingResults p.uid = none ∧
      (h.updatePendingPacket p d).verdicts p.uid = h.verdicts p.uid + 1 := by
  unfold updatePendingPacket verdicts
  simp only
  rw [if_pos hc]
  simp [PacketHandlerBase.verdict, PacketHandlerBase.settle, List.count_append]

/-- A fragment that does not. -/
private theorem update_open {h : SimulatedPacketHandler} {p : IpPkt} {d : Bool}
    (hc : (h.pendingAfter p d).complete = false) :
    (h.updatePendingPacket p d).pendingResults p.uid = some (h.pendingAfter p d) ∧
      (h.updatePendingPacket p d).verdicts p.uid = h.verdicts p.uid := by
  unfold updatePendingPacket verdicts
  simp only
  rw [if_neg (by simp [hc])]
  simp [PacketHandlerBase.settle]

/-- What the records say of packet `u` when `a` of its `size` bits are accounted for. -/
structure Fair (h : SimulatedPacketHandler) (u : UInt32) (size a : ℚ) : Prop where
  closed : a = size → h.verdicts u = 1 ∧ h.pendingResults u = none
  open_ : a ≠ size → h.verdicts u = 0 ∧ ((h.pendingResults u).getD {}).accountedBits = a ∧
    (((h.pendingResults u).getD {}).originalSize ≤ 0 ∨
      ((h.pendingResults u).getD {}).originalSize = size)

/-- Packet `u` has had a verdict too early: bits are missing, or there is a record left,
or a second verdict. -/
def Spoilt (h : SimulatedPacketHandler) (u : UInt32) (size a : ℚ) : Prop :=
  0 < h.verdicts u ∧ (a ≠ size ∨ 1 < h.verdicts u ∨ h.pendingResults u ≠ none)

/-- The record after a fragment of a packet with bits missing. -/
private theorem Fair.pendingAfter {h : SimulatedPacketHandler} {size a : ℚ} {p : IpPkt}
    (hf : h.Fair p.uid size a) (ha : a ≠ size) (horig : p.originalSize = size) (d : Bool) :
    (h.pendingAfter p d).originalSize = size ∧
      (h.pendingAfter p d).accountedBits = a + p.size := by
  obtain ⟨-, hacc, hsize⟩ := hf.open_ ha
  unfold SimulatedPacketHandler.pendingAfter
  simp only
  refine ⟨?_, by rw [hacc]⟩
  rcases hsize with hsize | hsize
  · rw [if_pos hsize, horig]
  · rw [hsize, horig, ite_self]

/-- A fragment of a packet with bits missing keeps the records fair, unless it leaves too
little of its packet. -/
private theorem Fair.update {h : SimulatedPacketHandler} {size a : ℚ} {p : IpPkt}
    (hf : h.Fair p.uid size a) (hsize : 0 < size) (ha : a ≠ size) (horig : p.originalSize = size)
    (d : Bool) :
    ((a + p.size = size ∨ a + p.size + bitRoundMargin < size) ∧
      (h.updatePendingPacket p d).Fair p.uid size (a + p.size)) ∨
    (¬(a + p.size = size ∨ a + p.size + bitRoundMargin < size) ∧
      (h.updatePendingPacket p d).Spoilt p.uid size (a + p.size)) := by
  obtain ⟨hsame, hbits⟩ := hf.pendingAfter ha horig d
  have hnone : h.verdicts p.uid = 0 := (hf.open_ ha).1
  have hcomplete : (h.pendingAfter p d).complete = true ↔ size ≤ a + p.size + bitRoundMargin := by
    rw [PendingPacketResult.complete, hsame, hbits]
    simp [hsize]
  by_cases hlast : size ≤ a + p.size + bitRoundMargin
  · obtain ⟨hpend, hverd⟩ := update_complete (hcomplete.mpr hlast)
    by_cases hall : a + p.size = size
    · exact Or.inl ⟨Or.inl hall, fun _ => ⟨by omega, hpend⟩, fun h => absurd hall h⟩
    · exact Or.inr ⟨fun h => h.elim hall (not_lt.mpr hlast), by omega, Or.inl hall⟩
  · obtain ⟨hpend, hverd⟩ := update_open (Bool.eq_false_iff.mpr fun h => hlast (hcomplete.mp h))
    refine Or.inl ⟨Or.inr (not_le.mp hlast), fun h => ?_, fun _ => ?_⟩
    · refine absurd (h.symm.le.trans (le_add_of_nonneg_right ?_)) hlast
      norm_num [bitRoundMargin]
    · rw [hpend]
      exact ⟨hverd.trans hnone, hbits, Or.inr hsame⟩

/-- Nothing mends a packet that had its verdict too early. -/
private theorem Spoilt.update {h : SimulatedPacketHandler} {size a : ℚ} {p : IpPkt}
    (hs : h.Spoilt p.uid size a) (d : Bool) (a' : ℚ) :
    (h.updatePendingPacket p d).Spoilt p.uid size a' := by
  have hone := hs.1
  by_cases hc : (h.pendingAfter p d).complete = true
  · obtain ⟨-, hverd⟩ := update_complete hc
    exact ⟨by omega, Or.inr (Or.inl (by omega))⟩
  · obtain ⟨hpend, hverd⟩ := update_open (Bool.eq_false_iff.mpr hc)
    refine ⟨by omega, Or.inr (Or.inr ?_)⟩
    rw [hpend]
    exact Option.some_ne_none _

/-- The records of packet `u` are fair, or a fragment left too little of it, and it is
spoilt from then on. -/
private theorem fair_or_spoilt {u : UInt32} {size : ℚ} (hsize : 0 < size) (l : List Settled) :
    FragmentsOf u size l → (Spares u size l ∧ (replay l).Fair u size (accounted u l)) ∨
      (¬Spares u size l ∧ (replay l).Spoilt u size (accounted u l)) := by
  induction l using List.reverseRecOn with
  | nil =>
      intro _
      refine Or.inl ⟨fun k hk x hx => ?_, fun h => absurd h hsize.ne, fun _ => ⟨rfl, rfl, ?_⟩⟩
      · obtain rfl := List.prefix_nil.mp ((List.mem_inits _ _).mp hk)
        cases hx
      · exact Or.inl le_rfl
  | append_singleton l x ih =>
      intro hfrag
      have hpre := ih hfrag.of_concat
      rw [replay_concat, spares_concat]
      by_cases hu : x.pkt.uid = u
      · subst hu
        have hacc : accounted x.pkt.uid (l ++ [x]) = accounted x.pkt.uid l + x.pkt.size := by
          rw [accounted_concat, IpPkt.bitsOf, if_pos rfl]
        have hmost := hfrag.most
        rw [hacc] at hmost ⊢
        rcases hpre with ⟨hspares, hfair⟩ | ⟨hspares, hspoilt⟩
        · have hpos : 0 < x.pkt.size := hfrag.pos x (by simp) rfl
          have hmore : accounted x.pkt.uid l ≠ size := fun h => by linarith
          exact (hfair.update hsize hmore (hfrag.original x (by simp) rfl) x.dropped).imp
            (And.imp_left fun h => ⟨hspares, fun _ => h⟩)
            (And.imp_left fun h hall => h (hall.2 rfl))
        · exact Or.inr ⟨fun h => hspares h.1, hspoilt.update x.dropped _⟩
      · obtain ⟨hpend, hverd⟩ := update_other (replay l) x.dropped hu
        have hacc : accounted u (l ++ [x]) = accounted u l := by
          rw [accounted_concat, IpPkt.bitsOf, if_neg hu, add_zero]
        rw [hacc]
        rcases hpre with ⟨hspares, hfair⟩ | ⟨hspares, hspoilt⟩
        · refine Or.inl ⟨⟨hspares, fun h => absurd h hu⟩, fun h => ?_, fun h => ?_⟩
          · rw [hpend, hverd]; exact hfair.closed h
          · rw [hpend, hverd]; exact hfair.open_ h
        · refine Or.inr ⟨fun h => hspares h.1, ?_⟩
          rw [Spoilt, hpend, hverd]
          exact hspoilt

/-- **The verdicts on packet `u` are right exactly when no fragment leaves too little of
it**: one verdict and no record once all its bits are accounted for, none before. -/
theorem replay_right_iff {u : UInt32} {size : ℚ} (hsize : 0 < size) {l : List Settled}
    (hfrag : FragmentsOf u size l) :
    ((accounted u l = size → (replay l).verdicts u = 1 ∧ (replay l).pendingResults u = none) ∧
      (accounted u l ≠ size → (replay l).verdicts u = 0)) ↔ Spares u size l := by
  rcases fair_or_spoilt hsize l hfrag with ⟨hspares, hfair⟩ | ⟨hspares, hone, hspoilt⟩
  · exact iff_of_true ⟨hfair.closed, fun h => (hfair.open_ h).1⟩ hspares
  · refine iff_of_false (fun h => ?_) hspares
    by_cases hall : accounted u l = size
    · obtain ⟨hverd, hpend⟩ := h.1 hall
      rcases hspoilt with hspoilt | hspoilt | hspoilt
      · exact hspoilt hall
      · omega
      · exact hspoilt hpend
    · have hnone := h.2 hall
      omega

/-! ### The handler and its records -/

/-- The records are those of the fragments the handler has finished with. -/
structure Replayed (h : SimulatedPacketHandler) : Prop where
  pending : h.pendingResults = (replay h.settled).pendingResults
  verdicts : h.verdictLog = (replay h.settled).verdictLog

theorem Replayed.verdicts_eq {h : SimulatedPacketHandler} (hr : h.Replayed) (u : UInt32) :
    h.verdicts u = (replay h.settled).verdicts u := by
  rw [SimulatedPacketHandler.verdicts, hr.verdicts, SimulatedPacketHandler.verdicts]

theorem Replayed.updatePendingPacket {h : SimulatedPacketHandler} (hr : h.Replayed)
    (p : IpPkt) (d : Bool) : (h.updatePendingPacket p d).Replayed := by
  have hsettled : (h.updatePendingPacket p d).settled = h.settled ++ [⟨p, d⟩] :=
    updatePendingPacket_settled h p d
  have hafter : (replay h.settled).pendingAfter p d = h.pendingAfter p d := by
    rw [pendingAfter, pendingAfter, hr.pending]
  constructor <;> rw [hsettled, replay_concat] <;>
    simp only [SimulatedPacketHandler.updatePendingPacket, hafter] <;> split
  · exact congrArg (fun f => Function.update f p.uid none) hr.pending
  · exact congrArg (fun f => Function.update f p.uid (some (h.pendingAfter p d))) hr.pending
  · exact congrArg (· ++ [(p.uid, (h.pendingAfter p d).finalVerdict)]) hr.verdicts
  · exact hr.verdicts

theorem Replayed.updateAll {d : Bool} (ps : List IpPkt) {h : SimulatedPacketHandler}
    (hr : h.Replayed) : (h.updateAll d ps).Replayed :=
  updateAll_rule (fun p d hg => hg.updatePendingPacket p d) d ps hr

theorem Replayed.releaseLoop (bs : List HarqPkt) {h : SimulatedPacketHandler}
    (r : PacketHandlerBase.ReleaseTotals) (hr : h.Replayed) : (releaseLoop bs h r).1.Replayed :=
  releaseLoop_rule (fun p d hg => hg.updatePendingPacket p d) bs r hr

theorem Replayed.ingest {h : SimulatedPacketHandler} (hr : h.Replayed) (t bits : ℚ) :
    (h.ingest t bits).1.Replayed :=
  ingest_rule (P := Replayed) (fun _ _ _ hg => ⟨hg.pending, hg.verdicts⟩) hr t bits

theorem Replayed.popIngressPkt {h h' : SimulatedPacketHandler} {p : IpPkt} (hr : h.Replayed)
    (hpop : PacketHandler.popIngressPkt h = some (p, h')) : h'.Replayed := by
  obtain ⟨rest, -, rfl⟩ := PacketHandler.popIngressPkt_eq_some hpop
  exact ⟨hr.pending, hr.verdicts⟩

end SimulatedPacketHandler

end NetworkEmulator
