/-
What `ingest` makes of the bits it is given.

The sizes of the new packets are the pieces of the bits, and their ids are the next values
of a counter.  The counter only ever grows, but an id is a word of 32 bits: ids come round
again, and are distinct as long as there are no more packets than words.
-/
import NetworkEmulator.Library.Pieces
import NetworkEmulator.Library.Recut
import NetworkEmulator.Proofs.Custody

namespace NetworkEmulator

open Pieces

/-- The ids of `n` packets, with the counter at `start`. -/
def uidsFrom (start n : ℕ) : List UInt32 := (List.range' start n).map UInt32.ofNat

@[simp] theorem length_uidsFrom (start n : ℕ) : (uidsFrom start n).length = n := by
  rw [uidsFrom, List.length_map, List.length_range']

theorem uidsFrom_append (start m n : ℕ) :
    uidsFrom start m ++ uidsFrom (start + m) n = uidsFrom start (m + n) := by
  rw [uidsFrom, uidsFrom, ← List.map_append, List.range'_append_1, uidsFrom]

/-- **Ids are distinct up to 2^32 packets.** -/
theorem nodup_uidsFrom_iff (start n : ℕ) : (uidsFrom start n).Nodup ↔ n ≤ 2 ^ 32 := by
  refine nodup_map_range'_iff (by decide) (fun i j => ?_) start n
  rw [← UInt32.toNat_inj, UInt32.toNat_ofNat', UInt32.toNat_ofNat']
  exact Iff.rfl

namespace SimulatedPacketHandler

/-! ### One call -/

/-- The sizes of the packets for so many bits. -/
def sizes (pktSize : ℤ) (bits : ℚ) : List ℚ := if bits ≤ 0 then [] else pieces pktSize bits

/-- Packets of these sizes, under the next ids. -/
def packets (h : SimulatedPacketHandler) (t : ℚ) (sizes : List ℚ) : List IpPkt :=
  sizes.mapIdx fun i size =>
    IpPkt.makeNext t size size (UInt32.ofNat (h.currentId + i)) h.bhD h.bhDVar

/-- From `h` to `h'` packets of these sizes were appended. -/
structure Appends (h : SimulatedPacketHandler) (t : ℚ) (sizes : List ℚ)
    (h' : SimulatedPacketHandler) : Prop where
  queue : h'.ingressPkts = h.ingressPkts ++ h.packets t sizes
  currentId : h'.currentId = h.currentId + sizes.length
  pktSize : h'.pktSize = h.pktSize
  bhD : h'.bhD = h.bhD
  bhDVar : h'.bhDVar = h.bhDVar

section Appends

variable {h h' : SimulatedPacketHandler} {t : ℚ} {done : List ℚ}

theorem Appends.refl (h : SimulatedPacketHandler) (t : ℚ) : Appends h t [] h where
  queue := (List.append_nil _).symm
  currentId := rfl
  pktSize := rfl
  bhD := rfl
  bhDVar := rfl

theorem Appends.pushNew (ha : Appends h t done h') (size : ℚ) :
    Appends h t (done ++ [size]) (h'.pushNew t size) where
  queue := by
    show h'.ingressPkts ++ [_] = _
    rw [ha.queue, packets, packets, List.mapIdx_concat, List.append_assoc, ha.currentId, ha.bhD,
      ha.bhDVar]
  currentId := by
    show h'.currentId + 1 = _
    rw [ha.currentId, List.length_append, List.length_singleton, Nat.add_assoc]
  pktSize := ha.pktSize
  bhD := ha.bhD
  bhDVar := ha.bhDVar

theorem Appends.pushFull (n : ℕ) : ∀ {h' : SimulatedPacketHandler} {done : List ℚ},
    Appends h t done h' →
      Appends h t (done ++ List.replicate n (h.pktSize : ℚ)) (pushFull t n h') := by
  induction n with
  | zero => intro h' done ha; rwa [List.replicate_zero, List.append_nil]
  | succ n ih =>
      intro h' done ha
      have hrest := ih (ha.pushNew h'.pktSize)
      rw [List.append_assoc, ha.pktSize, List.singleton_append, ← List.replicate_succ] at hrest
      rw [SimulatedPacketHandler.pushFull, ha.pktSize]
      exact hrest

/-- **What a call appends.** -/
theorem ingest_appends (hsize : 0 < h.pktSize) (t bits : ℚ) :
    Appends h t (sizes h.pktSize bits) (h.ingest t bits).1 := by
  unfold ingest sizes
  by_cases hbits : bits ≤ 0
  · rw [if_pos hbits, if_pos hbits]
    exact Appends.refl h t
  · rw [if_neg hbits, if_neg hbits]
    have hfull := (Appends.refl h t).pushFull (⌈bits / h.pktSize⌉ - 1).toNat
    have hleft : 0 < bits - ((⌈bits / h.pktSize⌉ : ℚ) - 1) * h.pktSize :=
      rest_pos (by exact_mod_cast hsize)
    simp only [if_pos hleft]
    exact hfull.pushNew _

end Appends

/-! ### The packets of a call -/

section Packets

variable {h : SimulatedPacketHandler} {t : ℚ} {l : List ℚ}

theorem packets_sizes : (h.packets t l).map IpPkt.size = l := by
  refine List.ext_getElem (by simp [packets]) fun i _ _ => ?_
  simp [packets, IpPkt.makeNext, IpPkt.make]

theorem packets_uids : (h.packets t l).map IpPkt.uid = uidsFrom h.currentId l.length := by
  refine List.ext_getElem (by simp [packets]) fun i _ _ => ?_
  simp [packets, uidsFrom, IpPkt.makeNext, IpPkt.make]

theorem packets_whole : ∀ p ∈ h.packets t l, p.originalSize = p.size := by
  intro p hp
  obtain ⟨i, hi, rfl⟩ := List.mem_mapIdx.mp hp
  rfl

end Packets

/-- What the packets of a call have to be, for so many bits. -/
structure Packetised (pktSize : ℤ) (bits : ℚ) (ps : List IpPkt) : Prop where
  count : (ps.length : ℤ) = ⌈bits / pktSize⌉
  bits : weight IpPkt.size ps = bits
  sizes : ∀ p ∈ ps, 0 < p.size ∧ p.size ≤ pktSize
  full : ∀ p ∈ ps.dropLast, p.size = pktSize
  whole : ∀ p ∈ ps, p.originalSize = p.size

theorem packetised_nil (pktSize : ℤ) : Packetised pktSize 0 [] where
  count := by simp
  bits := rfl
  sizes _ hp := absurd hp List.not_mem_nil
  full _ hp := absurd hp List.not_mem_nil
  whole _ hp := absurd hp List.not_mem_nil

/-- **The packets of a call are what they have to be.** -/
theorem packetised_packets (h : SimulatedPacketHandler) {pktSize : ℤ} (hsize : 0 < pktSize) (t : ℚ)
    {bits : ℚ} (hbits : 0 ≤ bits) :
    Packetised pktSize bits (h.packets t (sizes pktSize bits)) := by
  rcases hbits.eq_or_lt with rfl | hsome
  · rw [sizes, if_pos le_rfl]
    exact packetised_nil pktSize
  · have hpos : (0 : ℚ) < pktSize := by exact_mod_cast hsize
    rw [sizes, if_neg (not_le.mpr hsome)]
    have hsizes := packets_sizes (h := h) (t := t) (l := pieces (pktSize : ℚ) bits)
    refine ⟨?_, ?_, ?_, ?_, packets_whole⟩
    · rw [← List.length_map IpPkt.size, hsizes]
      exact length_pieces hpos hsome
    · rw [weight, hsizes]
      exact sum_pieces hpos hsome
    · intro p hp
      refine mem_pieces (x := bits) hpos ?_
      rw [← hsizes]
      exact List.mem_map_of_mem hp
    · intro p hp
      refine mem_dropLast_pieces (x := bits) ?_
      rw [← hsizes, ← List.map_dropLast]
      exact List.mem_map_of_mem hp

/-! ### Sequences of calls -/

/-- A call of `ingest`: its time, and the bits the traffic model generates. -/
structure IngestCall where
  currentT : ℚ
  bits : ℚ
  deriving DecidableEq, Repr

/-- The packets a call appends to the ingress queue. -/
def batch (h : SimulatedPacketHandler) (c : IngestCall) : List IpPkt :=
  (h.ingest c.currentT c.bits).1.ingressPkts.drop h.ingressPkts.length

/-- The handler after these calls. -/
def ingestAll : SimulatedPacketHandler → List IngestCall → SimulatedPacketHandler
  | h, [] => h
  | h, c :: rest => (h.ingest c.currentT c.bits).1.ingestAll rest

/-- What each of these calls appends. -/
def batches : SimulatedPacketHandler → List IngestCall → List (List IpPkt)
  | _, [] => []
  | h, c :: rest => h.batch c :: (h.ingest c.currentT c.bits).1.batches rest

section Calls

variable {h : SimulatedPacketHandler}

theorem batch_eq (hsize : 0 < h.pktSize) (c : IngestCall) :
    h.batch c = h.packets c.currentT (sizes h.pktSize c.bits) := by
  rw [batch, (ingest_appends hsize c.currentT c.bits).queue, List.drop_left]

/-- The queue grows by what each call appends. -/
theorem ingestAll_queue : ∀ {h : SimulatedPacketHandler} (calls : List IngestCall),
    0 < h.pktSize →
      (h.ingestAll calls).ingressPkts = h.ingressPkts ++ (h.batches calls).flatten := by
  intro h calls
  induction calls generalizing h with
  | nil => intro _; exact (List.append_nil _).symm
  | cons c calls ih =>
      intro hsize
      have happends := ingest_appends hsize c.currentT c.bits
      rw [ingestAll, batches, List.flatten_cons, ih (happends.pktSize ▸ hsize), batch_eq hsize,
        happends.queue, List.append_assoc]

/-- The ids of all packets are the next values of the counter. -/
theorem batches_uids : ∀ {h : SimulatedPacketHandler} (calls : List IngestCall), 0 < h.pktSize →
    (h.batches calls).flatten.map IpPkt.uid =
      uidsFrom h.currentId (h.batches calls).flatten.length := by
  intro h calls
  induction calls generalizing h with
  | nil => intro _; rfl
  | cons c calls ih =>
      intro hsize
      have happends := ingest_appends hsize c.currentT c.bits
      have hfirst : (h.batch c).map IpPkt.uid = uidsFrom h.currentId (h.batch c).length := by
        rw [batch_eq hsize, packets_uids, packets, List.length_mapIdx]
      have hcount :
          (h.ingest c.currentT c.bits).1.currentId = h.currentId + (h.batch c).length := by
        rw [happends.currentId, batch_eq hsize, packets, List.length_mapIdx]
      rw [batches, List.flatten_cons, List.map_append, List.length_append, hfirst,
        ih (happends.pktSize ▸ hsize), hcount, uidsFrom_append]

theorem batches_packetised : ∀ {h : SimulatedPacketHandler} {calls : List IngestCall},
    0 < h.pktSize → (∀ c ∈ calls, 0 ≤ c.bits) →
      List.Forall₂ (fun c ps => Packetised h.pktSize c.bits ps) calls (h.batches calls) := by
  intro h calls
  induction calls generalizing h with
  | nil => intro _ _; exact .nil
  | cons c calls ih =>
      intro hsize hbits
      obtain ⟨hc, hrest⟩ := List.forall_mem_cons.mp hbits
      have happends := ingest_appends hsize c.currentT c.bits
      have hnext := ih (happends.pktSize ▸ hsize) hrest
      rw [happends.pktSize] at hnext
      refine .cons ?_ hnext
      rw [batch_eq hsize]
      exact packetised_packets h hsize c.currentT hc

/-- So many packets there are. -/
theorem length_batches {calls : List IngestCall} {bs : List (List IpPkt)} {pktSize : ℤ}
    (hbs : List.Forall₂ (fun c ps => Packetised pktSize c.bits ps) calls bs) :
    (bs.flatten.length : ℤ) =
      (calls.map fun c : IngestCall => ⌈c.bits / (pktSize : ℚ)⌉).sum := by
  induction hbs with
  | nil => rfl
  | cons hc _ ih =>
      rw [List.flatten_cons, List.length_append, Nat.cast_add, hc.count, ih, List.map_cons,
        List.sum_cons]

end Calls

/-- **Packetisation is lossless.**  In every sequence of calls the packets each call appends
add up to its bits, are of full size but for the last one, which is no larger, and are whole;
and the ids of all of them are successive values of the counter, which are distinct exactly
when there are no more than 2^32. -/
theorem ingest_lossless (h : SimulatedPacketHandler) (hsize : 0 < h.pktSize)
    (calls : List IngestCall) (hbits : ∀ c ∈ calls, 0 ≤ c.bits) :
    (h.ingestAll calls).ingressPkts = h.ingressPkts ++ (h.batches calls).flatten ∧
      List.Forall₂ (fun c ps => Packetised h.pktSize c.bits ps) calls (h.batches calls) ∧
      (h.batches calls).flatten.map IpPkt.uid =
        uidsFrom h.currentId (h.batches calls).flatten.length ∧
      (((h.batches calls).flatten.map IpPkt.uid).Nodup ↔
        (h.batches calls).flatten.length ≤ 2 ^ 32) := by
  refine ⟨ingestAll_queue calls hsize, batches_packetised hsize hbits, batches_uids calls hsize, ?_⟩
  rw [batches_uids calls hsize]
  exact nodup_uidsFrom_iff _ _

/-- Two packets and a half, nothing, and a packet and a tail of less than a bit. -/
theorem ingest_lossless_three :
    let h := make 1000 {} 0 {}
    let calls : List IngestCall := [⟨0, 2500⟩, ⟨1, 0⟩, ⟨2, 2001 / 2⟩]
    (h.batches calls).map (List.map IpPkt.size) = [[1000, 1000, 500], [], [1000, 1 / 2]] ∧
      ((h.batches calls).flatten.map IpPkt.uid).Nodup := by
  intro h calls
  have hsizes : (h.batches calls).map (List.map IpPkt.size) =
      [[1000, 1000, 500], [], [1000, 1 / 2]] := by decide +kernel
  have hlen : (h.batches calls).flatten.length ≤ 2 ^ 32 := by decide +kernel
  have hall := ingest_lossless h (by decide) calls (by decide +kernel)
  exact ⟨hsizes, hall.2.2.2.mpr hlen⟩

/-- Five calls with 2^30 packets each are more than there are ids. -/
theorem uids_come_round :
    ¬ (((make 1 {} 0 {}).batches (List.replicate 5 ⟨0, 2 ^ 30⟩)).flatten.map IpPkt.uid).Nodup := by
  have hsize : 0 < (make 1 {} 0 {}).pktSize := by decide
  have hbits : ∀ c ∈ List.replicate 5 (⟨0, 2 ^ 30⟩ : IngestCall), 0 ≤ c.bits := by decide +kernel
  have hlen := length_batches (batches_packetised hsize hbits)
  have hsum : ((List.replicate 5 (⟨0, 2 ^ 30⟩ : IngestCall)).map fun c =>
      ⌈c.bits / ((make 1 {} 0 {}).pktSize : ℚ)⌉).sum = 5 * 2 ^ 30 := by decide +kernel
  rw [hsum] at hlen
  rw [batches_uids _ hsize, nodup_uidsFrom_iff]
  omega

/-! ### Runs of the layer -/

/-- The counter has counted every packet ingested so far. -/
def Numbered (h : SimulatedPacketHandler) : Prop :=
  h.ingested.map IpPkt.uid = uidsFrom 0 h.currentId

section Numbered

variable {h h' : SimulatedPacketHandler}

theorem Numbered.of_same (hn : Numbered h) (hing : h'.ingested = h.ingested)
    (hcount : h'.currentId = h.currentId) : Numbered h' := by
  unfold Numbered
  rw [hing, hcount]
  exact hn

theorem Numbered.pushNew (hn : Numbered h) (t size : ℚ) : Numbered (h.pushNew t size) := by
  show (h.ingested ++ [_]).map IpPkt.uid = uidsFrom 0 (h.currentId + 1)
  rw [List.map_append, hn, ← uidsFrom_append, Nat.zero_add]
  rfl

theorem Numbered.ingest (hn : Numbered h) (t bits : ℚ) : Numbered (h.ingest t bits).1 :=
  ingest_rule (P := Numbered) (fun t size _ hg => hg.pushNew t size) hn t bits

theorem Numbered.updatePendingPacket (hn : Numbered h) (p : IpPkt) (d : Bool) :
    Numbered (h.updatePendingPacket p d) := by
  unfold SimulatedPacketHandler.updatePendingPacket
  simp only
  split
  · exact hn.of_same rfl rfl
  · exact hn.of_same rfl rfl

theorem Numbered.updateAll (hn : Numbered h) (d : Bool) (ps : List IpPkt) :
    Numbered (h.updateAll d ps) :=
  updateAll_rule (fun p d hg => hg.updatePendingPacket p d) d ps hn

theorem Numbered.release (hn : Numbered h) : Numbered h.release.1 :=
  (releaseLoop_rule (fun p d hg => hg.updatePendingPacket p d) h.pktList {} hn).of_same rfl rfl

theorem Numbered.popIngressPkt (hn : Numbered h) {p : IpPkt}
    (hpop : PacketHandler.popIngressPkt h = some (p, h')) : Numbered h' := by
  obtain ⟨rest, -, rfl⟩ := PacketHandler.popIngressPkt_eq_some hpop
  exact hn.of_same rfl rfl

/-- Every move keeps it. -/
theorem Numbered.move {k : MoveKind} {c c' : Custody SimulatedPacketHandler} (hm : Move c k c')
    (hn : Numbered c.packetH) : Numbered c'.packetH := by
  cases hm with
  | receive e => exact e.elim
  | ingest t bits => exact hn.ingest t bits
  | enter hpop => exact hn.popIngressPkt hpop
  | refuse hpop => exact (hn.popIngressPkt hpop).of_same rfl rfl
  | takeDropped | drop => exact hn.updateAll true _
  | release => exact hn.release
  | tick | recordError | push | fetch | unstore | store | discard => exact hn.of_same rfl rfl

end Numbered

end SimulatedPacketHandler

namespace PdcpLayer

section Run

variable {cfg : PacketHandlerConfig} {verbosity : ℤ} {seeds : Seeds} {budgetS : ℚ} {fuel : ℕ}
  {es : List (Event Empty ℚ)} {s : PdcpLayer SimulatedPacketHandler}
  (hrun : (simulated cfg verbosity seeds budgetS).exec fuel es = some s)

include hrun

/-- **The ids of a run.**  Whatever happens between the calls of `ingest`, the packets of a
run have the ids from 0 on. -/
theorem simulated_uids :
    s.packetH.ingested.map IpPkt.uid = uidsFrom 0 s.packetH.ingested.length := by
  have hnumbered : s.packetH.Numbered :=
    exec_inv (I := fun c => c.packetH.Numbered) SimulatedPacketHandler.Numbered.move rfl hrun
  have hcount : s.packetH.ingested.length = s.packetH.currentId := by
    rw [← List.length_map IpPkt.uid, hnumbered, length_uidsFrom]
  rw [hcount]
  exact hnumbered

/-- They are distinct as long as there are no more packets than words. -/
theorem simulated_uids_nodup_iff :
    (s.packetH.ingested.map IpPkt.uid).Nodup ↔ s.packetH.ingested.length ≤ 2 ^ 32 := by
  rw [simulated_uids hrun]
  exact nodup_uidsFrom_iff 0 _

end Run

end PdcpLayer

end NetworkEmulator
