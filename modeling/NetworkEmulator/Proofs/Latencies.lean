/-
The latencies the two handlers report.

Both subtract time stamps from the time of the release.  For the IP latency both take the
stamp of the block, which `captured_packet_handler::push` copies into its packet.  For the
latency the handler of simulated traffic takes `current_t` of the block, the time of its
transmission, and the other one `current_t` of the packet, which `push` leaves as it is:
the time the packet came in.

So, when each packet is sent whole and alone and the releases keep to the order of capture,
the bits and the IP latencies agree, and all reports agree exactly when no packet waited for
its transmission: `reports_agree_iff`.
-/
import NetworkEmulator.Library.LinearSearch
import NetworkEmulator.Proofs.Release

namespace NetworkEmulator

open PacketHandlerBase (ReleaseTotals)

/-! ### Reports -/

/-- What a keeper was given since `m`, if it has made a step. -/
def MeanHandler.given (m m' : MeanHandler) : Option ℚ :=
  if m'.counter = m.counter then none else some (m'.value - m.value)

/-- What a call of `release` reports: the bits it returns, and the means it records. -/
@[ext]
structure ReleaseReport where
  bits : ℚ
  latency : Option ℚ
  ipLatency : Option ℚ
  deriving DecidableEq, Repr

namespace PacketHandler

variable {H Env In : Type} [PacketHandler H Env In]

/-- The report of a call of `release`. -/
def report (h : H) : ReleaseReport where
  bits := (release h).2
  latency := (base h).lMean.given (base (release h).1).lMean
  ipLatency := (base h).iplMean.given (base (release h).1).iplMean

end PacketHandler

/-- A block that carries one packet, whole. -/
structure HarqPkt.Alone (b : HarqPkt) (p : IpPkt) : Prop where
  pkts : b.pkts = [p]
  bits : b.bits = p.size
  whole : p.size = p.originalSize
  kept : p.erase = false
  spread : b.backhaulDVar = 0

/-- **A grant that carries one whole packet makes such a block.**  Its stamps are the time of
the grant and the oldest timestamp of the buffer. -/
theorem PdcpLayer.fetch_alone {H Env In : Type} [PacketHandler H Env In] {s : PdcpLayer H}
    {bits : ℚ} {mcs distance : ℤ} {p : IpPkt} (hone : (s.fetch bits mcs distance).1.pkts = [p])
    (hwhole : p.size = p.originalSize) (hkept : p.erase = false) (hspread : s.bhDVar = 0) :
    (s.fetch bits mcs distance).1.Alone p ∧
      (s.fetch bits mcs distance).1.currentT = s.currentT ∧
      (s.fetch bits mcs distance).1.tOut = s.currentT ∧
      (s.fetch bits mcs distance).1.ipT = s.ipBuffer.getOldestTimestamp := by
  obtain ⟨new, -, hblock⟩ := IpBuffer.getPkts_filled (G := ⊤) (fun _ => trivial) s.ipBuffer bits
    (s.newBlock s.ipBuffer.getOldestTimestamp mcs distance) fun _ _ => trivial
  rw [fetch_block, hblock] at hone ⊢
  have hnew : new = [p] := hone
  subst hnew
  exact ⟨⟨rfl, weight_singleton .., hwhole, hkept, hspread⟩, rfl, rfl, rfl⟩

/-! ### Schedules -/

/-- One packet on its way through either handler, with its place in the order of capture.
The stamps of the two blocks, and of the two packets, are the same. -/
structure Sending where
  place : ℕ
  simPkt : IpPkt
  simBlock : HarqPkt
  capPkt : IpPkt
  capBlock : HarqPkt
  simAlone : simBlock.Alone simPkt
  capAlone : capBlock.Alone capPkt
  size : simPkt.size = capPkt.size
  currentT : simPkt.currentT = capPkt.currentT
  sent : simBlock.currentT = capBlock.currentT
  ipT : simBlock.ipT = capBlock.ipT
  tOut : simBlock.tOut = capBlock.tOut
  backhaulD : simBlock.backhaulD = capBlock.backhaulD

namespace Sending

/-- When the packet came in. -/
def cameIn (s : Sending) : ℚ := s.capPkt.currentT

/-- When its block was sent. -/
def sentAt (s : Sending) : ℚ := s.capBlock.currentT

/-- When its block has come through the backhaul. -/
def out (s : Sending) : ℚ := s.capBlock.tOut + s.capBlock.backhaulD

/-- Whether a release at `t` finds it due. -/
def due (t : ℚ) (s : Sending) : Bool := decide (s.out ≤ t)

end Sending

/-- A call of a handler: `push`, or `step` to a time and `release`. -/
inductive LatencyCall where
  | send (s : Sending)
  | release (t : ℚ)

namespace LatencyCall

/-- The packets that are sent. -/
def sendings : List LatencyCall → List Sending
  | [] => []
  | .send s :: rest => s :: sendings rest
  | .release _ :: rest => sendings rest

/-- Each release lets go the next packets in the order of capture, after the first `n`, with
the packets `ws` sent and not released. -/
def InCaptureOrder : ℕ → List Sending → List LatencyCall → Prop
  | _, _, [] => True
  | n, ws, .send s :: rest => InCaptureOrder n (ws ++ [s]) rest
  | n, ws, .release t :: rest =>
    ((ws.filter (Sending.due t)).map Sending.place).Perm
        (List.range' n (ws.filter (Sending.due t)).length) ∧
      InCaptureOrder (n + (ws.filter (Sending.due t)).length) (ws.filter fun s => !s.due t) rest

/-- A packet that a later release finds due is sent in the instant it came in. -/
def SentAtOnce : List LatencyCall → Prop
  | [] => True
  | .send s :: rest =>
    (∀ t, .release t ∈ rest → s.due t = true → s.sentAt = s.cameIn) ∧ SentAtOnce rest
  | .release _ :: rest => SentAtOnce rest

/-- The reports of the calls, with the blocks that `block` names. -/
def reports {H Env In : Type} [PacketHandler H Env In] (block : Sending → HarqPkt) :
    H → List LatencyCall → List ReleaseReport
  | _, [] => []
  | h, .send s :: rest => reports block (PacketHandler.push h (block s)) rest
  | h, .release t :: rest =>
    let h := PacketHandler.step h t
    PacketHandler.report h :: reports block (PacketHandler.release h).1 rest

end LatencyCall

/-- What the packets of a schedule are to one another: each is sent once, ids ascend in the
order of capture, and each names the one captured before it. -/
structure Captured (ss : List Sending) : Prop where
  once : (ss.map Sending.place).Nodup
  ids : ∀ s ∈ ss, ∀ s' ∈ ss, s.place < s'.place → s.capPkt.uid < s'.capPkt.uid
  chain : ∀ s ∈ ss, ∀ s' ∈ ss, s'.place = s.place + 1 → s'.capPkt.prevUid = s.capPkt.uid

/-- A schedule: no packet is sent before it came in, and releases keep to the order. -/
structure Schedule where
  calls : List LatencyCall
  captured : Captured (LatencyCall.sendings calls)
  causal : ∀ s ∈ LatencyCall.sendings calls, s.cameIn ≤ s.sentAt
  inOrder : LatencyCall.InCaptureOrder 0 [] calls

/-! ### One release -/

/-- The keepers and the clock are as before. -/
private structure SameMeans (h h' : PacketHandlerBase) : Prop where
  lMean : h'.lMean = h.lMean
  iplMean : h'.iplMean = h.iplMean
  currentT : h'.currentT = h.currentT

private theorem SameMeans.trans {h h' h'' : PacketHandlerBase} (hfirst : SameMeans h h')
    (hsecond : SameMeans h' h'') : SameMeans h h'' :=
  ⟨hsecond.lMean.trans hfirst.lMean, hsecond.iplMean.trans hfirst.iplMean,
    hsecond.currentT.trans hfirst.currentT⟩

/-- The mean of the latencies of a release. -/
def PacketHandlerBase.ReleaseTotals.mean (r : ReleaseTotals) (sum : ℚ) : Option ℚ :=
  if 0 < r.count then some (sum / r.count) else none

private theorem given_record (m : MeanHandler) (r : ReleaseTotals) (sum : ℚ) :
    m.given (if 0 < r.count then (m.add (sum / r.count)).step else m) = r.mean sum := by
  unfold MeanHandler.given PacketHandlerBase.ReleaseTotals.mean
  by_cases hcount : 0 < r.count
  · rw [if_pos hcount, if_pos hcount]
    simp [MeanHandler.add, MeanHandler.step]
  · rw [if_neg hcount, if_neg hcount, if_pos rfl]

/-- The report of a release that forms the sums `r`. -/
def PacketHandlerBase.ReleaseTotals.report (r : ReleaseTotals) : ReleaseReport where
  bits := r.bits
  latency := r.mean r.latency
  ipLatency := r.mean r.ipLatency

private theorem recordRelease_report {h h' : PacketHandlerBase} (hmeans : SameMeans h h')
    (r : ReleaseTotals) : ReleaseReport.mk r.bits (h.lMean.given (h'.recordRelease r).lMean)
      (h.iplMean.given (h'.recordRelease r).iplMean) = r.report := by
  simp only [PacketHandlerBase.recordRelease, hmeans.lMean, hmeans.iplMean, given_record]
  rfl

namespace Sending

/-- The bits of the packet. -/
def bits (s : Sending) : ℚ := s.capPkt.originalSize

/-- The sums with one more packet, whose latency is taken from `stamp`. -/
def count (stamp : Sending → ℚ) (t : ℚ) (r : ReleaseTotals) (s : Sending) : ReleaseTotals where
  count := r.count + 1
  bits := r.bits + s.bits
  latency := r.latency + (t - stamp s)
  ipLatency := r.ipLatency + (t - s.capBlock.ipT)

/-- What the list of blocks holds of the packet. -/
def simEntry (s : Sending) : HarqPkt := { s.simBlock with tOut := s.out }

/-- What `out_pkts` holds of it. -/
def capEntry (s : Sending) : IpPkt :=
  { s.capPkt with
    tOut := s.out, ipT := s.capBlock.ipT, fragsRecovered := s.capPkt.fragsRecovered + 1 }

private theorem simBlock_bits (s : Sending) : s.simBlock.bits = s.bits :=
  s.simAlone.bits.trans (s.size.trans s.capAlone.whole)

private theorem simOut_eq (s : Sending) (x : ℚ) :
    s.simBlock.tOut + (s.simBlock.backhaulD + x * s.simBlock.backhaulDVar) = s.out := by
  rw [s.simAlone.spread, mul_zero, add_zero, s.tOut, s.backhaulD]
  rfl

private theorem capOut_eq (s : Sending) (x : ℚ) :
    s.capBlock.tOut + (s.capBlock.backhaulD + x * s.capBlock.backhaulDVar) = s.out := by
  rw [s.capAlone.spread, mul_zero, add_zero]
  rfl

private theorem capEntry_ready (s : Sending) : s.capEntry.isReady = true := by
  rw [IpPkt.isReady_iff]
  show |s.capPkt.size - s.capPkt.originalSize| ≤ bitRoundMargin
  rw [s.capAlone.whole, sub_self, abs_zero, bitRoundMargin]
  norm_num

/-! #### The handler of simulated traffic -/

private theorem updatePendingPacket_means (h : SimulatedPacketHandler) (p : IpPkt) (d : Bool) :
    SameMeans h.toPacketHandlerBase (h.updatePendingPacket p d).toPacketHandlerBase := by
  unfold SimulatedPacketHandler.updatePendingPacket
  simp only
  split
  · exact ⟨rfl, rfl, rfl⟩
  · exact ⟨rfl, rfl, rfl⟩

private theorem updateAll_means (d : Bool) (ps : List IpPkt) (h : SimulatedPacketHandler) :
    SameMeans h.toPacketHandlerBase (h.updateAll d ps).toPacketHandlerBase :=
  SimulatedPacketHandler.updateAll_rule
    (P := fun g => SameMeans h.toPacketHandlerBase g.toPacketHandlerBase)
    (fun p d hg => hg.trans (updatePendingPacket_means _ p d)) d ps ⟨rfl, rfl, rfl⟩

/-- The loop lets go what is due, wherever it stands. -/
private theorem simLoop (t : ℚ) : ∀ (ws : List Sending) (h : SimulatedPacketHandler)
    (r : ReleaseTotals), h.currentT = t → ∃ h', SimulatedPacketHandler.releaseLoop
        (ws.map simEntry) h r = (h', (ws.filter fun s => !s.due t).map simEntry,
          (ws.filter (due t)).foldl (count sentAt t) r) ∧
      SameMeans h.toPacketHandlerBase h'.toPacketHandlerBase := by
  intro ws
  induction ws with
  | nil => intro h r _; exact ⟨h, rfl, rfl, rfl, rfl⟩
  | cons s ws ih =>
      intro h r ht
      subst ht
      rw [List.map_cons, SimulatedPacketHandler.releaseLoop]
      by_cases hdue : s.due h.currentT = true
      · have hmeans := updateAll_means false s.simEntry.pkts h
        obtain ⟨h', hloop, hmeans'⟩ := ih (h.updateAll false s.simEntry.pkts)
          (count sentAt h.currentT r s) hmeans.currentT
        have hone : ({ count := r.count + 1
                       bits := r.bits + s.simEntry.bits
                       latency := r.latency + (h.currentT - s.simEntry.currentT)
                       ipLatency := r.ipLatency + (h.currentT - s.simEntry.ipT) } :
            ReleaseTotals) = count sentAt h.currentT r s := by
          show ReleaseTotals.mk _ (r.bits + s.simBlock.bits) (_ + (_ - s.simBlock.currentT))
            (_ + (_ - s.simBlock.ipT)) = _
          rw [s.simBlock_bits, s.sent, s.ipT]
          rfl
        have hout : s.simEntry.tOut ≤ h.currentT := of_decide_eq_true hdue
        refine ⟨h', ?_, hmeans.trans hmeans'⟩
        rw [if_pos hout, hone, hloop, List.filter_cons_of_pos hdue,
          List.filter_cons_of_neg (by simp [hdue]), List.foldl_cons]
      · obtain ⟨h', hloop, hmeans⟩ := ih h r rfl
        have hfail : s.due h.currentT = false := by simpa using hdue
        have hout : ¬ s.simEntry.tOut ≤ h.currentT := of_decide_eq_false hfail
        refine ⟨h', ?_, hmeans⟩
        rw [if_neg hout, hloop, List.filter_cons_of_neg hdue,
          List.filter_cons_of_pos (by simp [hfail])]
        rfl

/-! #### The handler of captured traffic -/

/-- The packet captured `n`-th would pass `check_order`. -/
private def Next (all : List Sending) (n : ℕ) (h : CapturedPacketHandler) : Prop :=
  ∀ s ∈ all, s.place = n → h.checkOrder s.capPkt.prevUid.toInt32 = true

/-- An entry that is due and the next in the order is accepted. -/
private theorem capOne {all : List Sending} (hall : Captured all) {s : Sending} (hs : s ∈ all)
    {h : CapturedPacketHandler} {r : ReleaseTotals} (hnext : Next all s.place h)
    (hdue : s.due h.currentT = true) : ∃ h', h.releaseOne s.capEntry r =
        some (h', count cameIn h.currentT r s) ∧
      SameMeans h.toPacketHandlerBase h'.toPacketHandlerBase ∧ Next all (s.place + 1) h' := by
  have hpasses : h.passes h.prevReleasedId s.capEntry = true := by
    unfold CapturedPacketHandler.passes
    rw [s.capEntry_ready, Bool.true_and, Bool.or_eq_true, Bool.and_eq_true]
    exact Or.inr ⟨hnext s hs rfl, hdue⟩
  rw [← CapturedPacketHandler.releaseOne_isSome h s.capEntry r] at hpasses
  obtain ⟨⟨h', r'⟩, hone⟩ := Option.isSome_iff_exists.mp hpasses
  obtain ⟨v, hbase, -, hlast, -, hplain, -⟩ := CapturedPacketHandler.releaseOne_verdict hone
  have hr : r' = count cameIn h.currentT r s := by
    obtain ⟨-, ⟨herase, -⟩ | ⟨-, -, -, hr, -⟩⟩ := CapturedPacketHandler.releaseOne_cases hone
    · exact absurd (s.capAlone.kept.symm.trans herase) (by simp)
    · exact hr
  refine ⟨h', hr ▸ hone, ?_, fun s' hs' hplace => ?_⟩
  · rw [hbase]
    exact ⟨rfl, rfl, rfl⟩
  · -- The packet behind names this one, which is now remembered.
    rw [hall.chain s hs s' hs' hplace]
    unfold CapturedPacketHandler.checkOrder
    rw [hlast]
    split
    · exact beq_self_eq_true s.capPkt.uid.toInt32
    · rfl

/-- The loop lets go the next packets in the order, up to the first that is not due. -/
private theorem capLoop {all : List Sending} (hall : Captured all) {rest : List Sending} {t : ℚ}
    (hrest : ∀ s ∈ rest.head?, s.due t = false) : ∀ (ds : List Sending) (n : ℕ)
    (h : CapturedPacketHandler) (r : ReleaseTotals), h.currentT = t → (∀ s ∈ ds, s ∈ all) →
    ds.map place = List.range' n ds.length → (∀ s ∈ ds, s.due t = true) → Next all n h →
    ∃ h', CapturedPacketHandler.releaseLoop ((ds ++ rest).map capEntry) h r =
        (h', rest.map capEntry, ds.foldl (count cameIn t) r) ∧
      SameMeans h.toPacketHandlerBase h'.toPacketHandlerBase ∧ Next all (n + ds.length) h' := by
  intro ds
  induction ds with
  | nil =>
      intro n h r ht _ _ _ hnext
      refine ⟨h, ?_, ⟨rfl, rfl, rfl⟩, hnext⟩
      rcases rest with _ | ⟨q, rest⟩
      · rfl
      · have hnone : h.releaseOne q.capEntry r = none := by
          rw [← Option.not_isSome_iff_eq_none, CapturedPacketHandler.releaseOne_isSome]
          have hlate : ¬ q.capEntry.tOut ≤ h.currentT := by
            rw [ht]
            exact of_decide_eq_false (hrest q rfl)
          have hkept : q.capEntry.erase = false := q.capAlone.kept
          simp [CapturedPacketHandler.passes, hlate, hkept]
        rw [List.nil_append, List.map_cons, CapturedPacketHandler.releaseLoop, hnone]
        rfl
  | cons s ds ih =>
      intro n h r ht hmem hplaces hdue hnext
      subst ht
      rw [List.map_cons, List.length_cons, List.range'_succ, List.cons.injEq] at hplaces
      obtain ⟨rfl, hplaces⟩ := hplaces
      obtain ⟨h₁, hone, hmeans, hnext₁⟩ := capOne (r := r) hall (hmem s (List.mem_cons_self ..))
        hnext (hdue s (List.mem_cons_self ..))
      obtain ⟨h', hloop, hmeans', hnext'⟩ := ih (s.place + 1) h₁ (count cameIn h.currentT r s)
        hmeans.currentT (fun x hx => hmem x (List.mem_cons_of_mem _ hx)) hplaces
        (fun x hx => hdue x (List.mem_cons_of_mem _ hx)) hnext₁
      refine ⟨h', ?_, hmeans.trans hmeans', ?_⟩
      · rw [List.cons_append, List.map_cons, CapturedPacketHandler.releaseLoop, hone]
        exact hloop
      · rw [List.length_cons, Nat.add_comm ds.length, ← Nat.add_assoc]
        exact hnext'

/-! #### The sums -/

private instance (stamp : Sending → ℚ) (t : ℚ) : RightCommutative (count stamp t) :=
  ⟨fun r a b => by simp only [count, PacketHandlerBase.ReleaseTotals.mk.injEq]; ring_nf; simp⟩

private theorem foldl_count (stamp : Sending → ℚ) (t : ℚ) : ∀ (ss : List Sending)
    (r : ReleaseTotals), ss.foldl (count stamp t) r =
      { count := r.count + ss.length
        bits := r.bits + (ss.map bits).sum
        latency := r.latency + (ss.map fun s => t - stamp s).sum
        ipLatency := r.ipLatency + (ss.map fun s => t - s.capBlock.ipT).sum } := by
  intro ss
  induction ss with
  | nil => intro r; simp
  | cons s ss ih =>
      intro r
      rw [List.foldl_cons, ih]
      simp only [count, List.length_cons, List.map_cons, List.sum_cons,
        PacketHandlerBase.ReleaseTotals.mk.injEq]
      exact ⟨by omega, by ring, by ring, by ring⟩

/-- Sums of stamps that are in order agree only when all of the stamps do. -/
private theorem sum_stamps_iff {t : ℚ} {ss : List Sending} (hle : ∀ s ∈ ss, s.cameIn ≤ s.sentAt) :
    (ss.map fun s => t - s.sentAt).sum ≤ (ss.map fun s => t - s.cameIn).sum ∧
      ((ss.map fun s => t - s.sentAt).sum = (ss.map fun s => t - s.cameIn).sum ↔
        ∀ s ∈ ss, s.sentAt = s.cameIn) := by
  induction ss with
  | nil => simp
  | cons s ss ih =>
      obtain ⟨hs, hss⟩ := List.forall_mem_cons.mp hle
      obtain ⟨hsum, hiff⟩ := ih hss
      simp only [List.map_cons, List.sum_cons, List.forall_mem_cons]
      refine ⟨by linarith, fun heq => ?_, fun ⟨heq, hall⟩ => ?_⟩
      · have hhead : s.sentAt = s.cameIn := by linarith
        exact ⟨hhead, hiff.mp (by linarith)⟩
      · rw [heq, hiff.mpr hall]

/-- **The reports of one release.** -/
private theorem report_iff {t : ℚ} {ds : List Sending} (hle : ∀ s ∈ ds, s.cameIn ≤ s.sentAt) :
    let sim := (ds.foldl (count sentAt t) {}).report
    let cap := (ds.foldl (count cameIn t) {}).report
    sim.bits = cap.bits ∧ sim.ipLatency = cap.ipLatency ∧
      (sim = cap ↔ ∀ s ∈ ds, s.sentAt = s.cameIn) := by
  intro sim cap
  have hsim : sim = (ds.foldl (count sentAt t) {}).report := rfl
  have hcap : cap = (ds.foldl (count cameIn t) {}).report := rfl
  rw [foldl_count] at hsim hcap
  have hbits : sim.bits = cap.bits := by rw [hsim, hcap]; rfl
  have hip : sim.ipLatency = cap.ipLatency := by rw [hsim, hcap]; rfl
  refine ⟨hbits, hip, ?_⟩
  have hlatency : sim = cap ↔ sim.latency = cap.latency :=
    ReleaseReport.ext_iff.trans ⟨fun h => h.2.1, fun h => ⟨hbits, h, hip⟩⟩
  rw [hlatency, hsim, hcap, ← (sum_stamps_iff (t := t) hle).2]
  simp only [PacketHandlerBase.ReleaseTotals.report, PacketHandlerBase.ReleaseTotals.mean, zero_add]
  by_cases hlen : 0 < ds.length
  · rw [if_pos hlen, if_pos hlen, Option.some.injEq]
    have hne : (ds.length : ℚ) ≠ 0 := by exact_mod_cast hlen.ne'
    exact div_left_inj' hne
  · have hnil : ds = [] := List.length_eq_zero_iff.mp (by omega)
    subst hnil
    simp

end Sending

/-! ### Whole schedules -/

open Sending

private theorem sim_report {sim : SimulatedPacketHandler} {ws : List Sending} {t : ℚ}
    (hlist : sim.pktList = ws.map simEntry) (ht : sim.currentT = t) :
    PacketHandler.report sim = ((ws.filter (due t)).foldl (count sentAt t) {}).report ∧
      sim.release.1.pktList = (ws.filter fun s => !s.due t).map simEntry := by
  obtain ⟨h', hloop, hmeans⟩ := simLoop t ws sim {} ht
  let kept : PacketHandlerBase :=
    { h'.toPacketHandlerBase with pktList := (ws.filter fun s => !s.due t).map simEntry }
  have hrelease : sim.release = ({ h' with
      toPacketHandlerBase := kept.recordRelease ((ws.filter (due t)).foldl (count sentAt t) {}) },
      ((ws.filter (due t)).foldl (count sentAt t) {}).bits) := by
    rw [SimulatedPacketHandler.release, hlist, hloop]
  show ReleaseReport.mk sim.release.2 (sim.lMean.given sim.release.1.lMean)
    (sim.iplMean.given sim.release.1.iplMean) = _ ∧ _
  rw [hrelease]
  have hkept : SameMeans sim.toPacketHandlerBase kept :=
    ⟨hmeans.lMean, hmeans.iplMean, hmeans.currentT⟩
  exact ⟨recordRelease_report hkept _, rfl⟩

private theorem cap_report {all : List Sending} (hall : Captured all) {cap : CapturedPacketHandler}
    {ds rest : List Sending} {n : ℕ} {t : ℚ} (hlist : cap.outPkts = (ds ++ rest).map capEntry)
    (ht : cap.currentT = t) (hmem : ∀ s ∈ ds, s ∈ all)
    (hplaces : ds.map place = List.range' n ds.length) (hdue : ∀ s ∈ ds, s.due t = true)
    (hrest : ∀ s ∈ rest.head?, s.due t = false) (hnext : Next all n cap) :
    PacketHandler.report cap = (ds.foldl (count cameIn t) {}).report ∧
      cap.release.1.outPkts = rest.map capEntry ∧ Next all (n + ds.length) cap.release.1 := by
  obtain ⟨h', hloop, hmeans, hnext'⟩ := capLoop hall hrest ds n cap {} ht hmem hplaces hdue hnext
  have hrelease : cap.release = ({ h' with
      toPacketHandlerBase := h'.toPacketHandlerBase.recordRelease (ds.foldl (count cameIn t) {})
      outPkts := rest.map capEntry }, (ds.foldl (count cameIn t) {}).bits) := by
    rw [CapturedPacketHandler.release, hlist, hloop]
  show ReleaseReport.mk cap.release.2 (cap.lMean.given cap.release.1.lMean)
    (cap.iplMean.given cap.release.1.iplMean) = _ ∧ _
  rw [hrelease]
  exact ⟨recordRelease_report hmeans _, rfl, hnext'⟩

/-- The two handlers hold the packets `ws`, of a schedule of which the first `n` are out. -/
private structure Coupled (all : List Sending) (n : ℕ) (ws : List Sending)
    (sim : SimulatedPacketHandler) (cap : CapturedPacketHandler) : Prop where
  simList : sim.pktList = ws.map simEntry
  capList : ∃ qs : List Sending, qs.Perm ws ∧ (qs.map place).Pairwise (· < ·) ∧
    cap.outPkts = qs.map capEntry
  next : Next all n cap

section Steps

variable {all ws : List Sending} {n : ℕ} {sim : SimulatedPacketHandler}
  {cap : CapturedPacketHandler}

private theorem uid_ne (hall : Captured all) {s q : Sending} (hs : s ∈ all) (hq : q ∈ all)
    (hne : s.place ≠ q.place) : s.capPkt.uid ≠ q.capPkt.uid := by
  rcases Nat.lt_or_gt_of_ne hne with hlt | hlt
  · exact UInt32.ne_of_lt (hall.ids s hs q hq hlt)
  · exact (UInt32.ne_of_lt (hall.ids q hq s hs hlt)).symm

/-- Entries in the order of their ids are in the order of capture. -/
private theorem sortById_map (hall : Captured all) {qs : List Sending} (hqs : ∀ q ∈ qs, q ∈ all)
    (hone : (qs.map place).Nodup) : ∃ qs' : List Sending, qs'.Perm qs ∧
      (qs'.map place).Pairwise (· < ·) ∧
      CapturedPacketHandler.sortById (qs.map capEntry) = qs'.map capEntry := by
  refine ⟨qs.insertionSort fun a b => a.place ≤ b.place, List.perm_insertionSort _ _, ?_, ?_⟩
  · have hsorted : ((qs.insertionSort fun a b => a.place ≤ b.place).map place).Pairwise
        (· ≤ ·) := by
      rw [List.pairwise_map]
      exact List.pairwise_insertionSort _ qs
    have hnodup := ((List.perm_insertionSort (fun a b => a.place ≤ b.place) qs).map
      place).nodup_iff.mpr hone
    exact (hsorted.and hnodup).imp fun ⟨hle, hne⟩ => lt_of_le_of_ne hle hne
  · refine (List.map_insertionSort (fun a b : Sending => a.place ≤ b.place)
      (fun a b : IpPkt => a.uid ≤ b.uid) capEntry qs fun a ha b hb => ?_).symm
    show a.place ≤ b.place ↔ a.capPkt.uid ≤ b.capPkt.uid
    constructor
    · intro hle
      rcases hle.lt_or_eq with hlt | heq
      · exact UInt32.le_of_lt (hall.ids a (hqs a ha) b (hqs b hb) hlt)
      · rw [List.inj_on_of_nodup_map hone ha hb heq]
        exact UInt32.le_refl _
    · intro hle
      by_contra hlt
      have huid := hall.ids b (hqs b hb) a (hqs a ha) (not_le.mp hlt)
      exact absurd huid (UInt32.not_lt.mpr hle)

private theorem Coupled.send (hall : Captured all) (h : Coupled all n ws sim cap) {s : Sending}
    (hs : s ∈ all) (hws : ∀ w ∈ ws, w ∈ all) (hone : ((ws ++ [s]).map place).Nodup) :
    Coupled all n (ws ++ [s]) (sim.push s.simBlock) (cap.push s.capBlock) := by
  obtain ⟨qs, hperm, -, hlist⟩ := h.capList
  have hqs : ∀ q ∈ qs ++ [s], q ∈ all := by
    intro q hq
    rcases List.mem_append.mp hq with hq | hq
    · exact hws q (hperm.subset hq)
    · rw [List.mem_singleton.mp hq]
      exact hs
  have honeq : ((qs ++ [s]).map place).Nodup :=
    ((hperm.append_right [s]).map place).nodup_iff.mpr hone
  -- No entry has the id of the packet, so one is added for it.
  have hnew : CapturedPacketHandler.pushOne s.out s.capBlock.ipT (qs.map capEntry) s.capPkt =
      (qs ++ [s]).map capEntry := by
    unfold CapturedPacketHandler.pushOne
    simp only
    split
    · next out hout =>
      obtain ⟨pre, p, post, hps, huid, -⟩ := CapturedPacketHandler.addData_some hout
      obtain ⟨q, hq, rfl⟩ : ∃ q ∈ qs, q.capEntry = p :=
        List.mem_map.mp (hps ▸ List.mem_append_right _ (List.mem_cons_self ..))
      rw [List.map_append, List.nodup_append] at honeq
      have hplace := honeq.2.2 _ (List.mem_map_of_mem hq) _ (List.mem_singleton_self s.place)
      exact absurd huid (uid_ne hall (hws q (hperm.subset hq)) hs hplace)
    · rw [List.map_append]
      rfl
  obtain ⟨qs', hperm', hsorted, hsort⟩ := sortById_map hall hqs honeq
  refine ⟨?_, ⟨qs', hperm'.trans (hperm.append_right [s]), hsorted, ?_⟩, h.next⟩
  · show sim.pktList ++ [_] = _
    rw [h.simList, s.simOut_eq, List.map_append]
    rfl
  · rw [CapturedPacketHandler.push, s.capOut_eq, s.capAlone.pkts, hlist]
    show CapturedPacketHandler.sortById (CapturedPacketHandler.pushOne s.out s.capBlock.ipT
      (qs.map capEntry) s.capPkt) = _
    rw [hnew, hsort]

/-- What is due stands before what is not, in the order of capture. -/
private theorem due_first {qs : List Sending} {t : ℚ} (hsorted : (qs.map place).Pairwise (· < ·))
    (hlow : ∀ q ∈ qs, n ≤ q.place)
    (hplaces : ((qs.filter (due t)).map place).Perm (List.range' n (qs.filter (due t)).length)) :
    LinearSearch.Unblocked (due t) qs ∧
      (qs.filter (due t)).map place = List.range' n (qs.filter (due t)).length := by
  have hnodup : (qs.map place).Nodup := hsorted.imp fun hlt => Nat.ne_of_lt hlt
  constructor
  · refine (List.pairwise_map.mp hsorted).imp_of_mem fun {a b} ha hb hlt hbdue => ?_
    have hbmem := hplaces.subset (List.mem_map_of_mem (List.mem_filter.mpr ⟨hb, hbdue⟩))
    have hamem : a.place ∈ List.range' n (qs.filter (due t)).length := by
      rw [List.mem_range'_1] at hbmem ⊢
      have := hlow a ha
      omega
    obtain ⟨c, hc, hplace⟩ := List.mem_map.mp (hplaces.symm.subset hamem)
    obtain ⟨hcmem, hcdue⟩ := List.mem_filter.mp hc
    rwa [← List.inj_on_of_nodup_map hnodup hcmem ha hplace]
  · refine hplaces.eq_of_pairwise (fun a b _ _ hab hba => absurd hab (Nat.lt_asymm hba))
      (hsorted.sublist (List.filter_sublist.map place)) (List.pairwise_lt_range' ..)

/-- What stays comes behind what goes, in the order of capture. -/
private theorem place_beyond {later : List Sending} {t : ℚ}
    (hplaces : ((ws.filter (due t)).map place).Perm (List.range' n (ws.filter (due t)).length))
    (hone : ((ws ++ later).map place).Nodup) (hlow : ∀ s ∈ ws ++ later, n ≤ s.place) :
    ∀ s ∈ (ws.filter fun w => !w.due t) ++ later, n + (ws.filter (due t)).length ≤ s.place := by
  intro s hs
  have hmem : s ∈ ws ++ later := (List.filter_sublist.append_right later).subset hs
  by_contra hlt
  have hrange : s.place ∈ List.range' n (ws.filter (due t)).length := by
    have := hlow s hmem
    rw [List.mem_range'_1]
    omega
  obtain ⟨w, hw, hplace⟩ := List.mem_map.mp (hplaces.symm.subset hrange)
  obtain ⟨hwmem, hwdue⟩ := List.mem_filter.mp hw
  rcases List.mem_append.mp hs with hs | hs
  · have hsame := List.inj_on_of_nodup_map hone (List.mem_append_left _ hwmem) hmem hplace
    have hlate := (List.mem_filter.mp hs).2
    rw [← hsame, hwdue] at hlate
    cases hlate
  · rw [List.map_append, List.nodup_append] at hone
    exact hone.2.2 _ (List.mem_map_of_mem hwmem) _ (List.mem_map_of_mem hs) hplace

private theorem Coupled.release (hall : Captured all) (h : Coupled all n ws sim cap) {t : ℚ}
    (hsim : sim.currentT = t) (hcap : cap.currentT = t) (hws : ∀ w ∈ ws, w ∈ all)
    (hlow : ∀ w ∈ ws, n ≤ w.place) (hle : ∀ w ∈ ws, w.cameIn ≤ w.sentAt)
    (hplaces : ((ws.filter (due t)).map place).Perm (List.range' n (ws.filter (due t)).length)) :
    Coupled all (n + (ws.filter (due t)).length) (ws.filter fun w => !w.due t)
        sim.release.1 cap.release.1 ∧
      (PacketHandler.report sim).bits = (PacketHandler.report cap).bits ∧
      (PacketHandler.report sim).ipLatency = (PacketHandler.report cap).ipLatency ∧
      (PacketHandler.report sim = PacketHandler.report cap ↔
        ∀ w ∈ ws.filter (due t), w.sentAt = w.cameIn) := by
  obtain ⟨qs, hperm, hsorted, hlist⟩ := h.capList
  have hdue : (qs.filter (due t)).Perm (ws.filter (due t)) := hperm.filter _
  have hrest : (qs.filter fun q => !q.due t).Perm (ws.filter fun w => !w.due t) := hperm.filter _
  rw [← hdue.length_eq] at hplaces ⊢
  obtain ⟨hfree, hrange⟩ := due_first hsorted (fun q hq => hlow q (hperm.subset hq))
    ((hdue.map place).trans hplaces)
  have hsplit : qs = qs.filter (due t) ++ qs.filter fun q => !q.due t := by
    rw [← LinearSearch.takeWhile_eq_filter_iff.mpr hfree,
      ← LinearSearch.dropWhile_eq_filter_iff.mpr hfree, List.takeWhile_append_dropWhile]
  obtain ⟨hsimReport, hsimList⟩ := sim_report h.simList hsim
  obtain ⟨hcapReport, hcapList, hnext⟩ := cap_report hall (hlist.trans (congrArg _ hsplit)) hcap
    (fun q hq => hws q (hperm.subset (List.mem_filter.mp hq).1)) hrange
    (fun q hq => (List.mem_filter.mp hq).2)
    (fun q hq => by simpa using (List.mem_filter.mp (List.mem_of_mem_head? hq)).2) h.next
  have hsorted' := hsorted.sublist
    ((List.filter_sublist (p := fun q => !q.due t) (l := qs)).map place)
  refine ⟨⟨hsimList, ⟨_, hrest, hsorted', hcapList⟩, hnext⟩, ?_⟩
  rw [hsimReport, hcapReport, hdue.foldl_eq]
  exact report_iff fun w hw => hle w (List.mem_filter.mp hw).1

end Steps

/-- The packets waiting that a later release finds due were sent in the instant they came in. -/
private def Prompt (ws : List Sending) (cs : List LatencyCall) : Prop :=
  (∀ s ∈ ws, ∀ t, .release t ∈ cs → s.due t = true → s.sentAt = s.cameIn) ∧
    LatencyCall.SentAtOnce cs

private theorem prompt_send {ws : List Sending} {s : Sending} {cs : List LatencyCall} :
    Prompt ws (.send s :: cs) ↔ Prompt (ws ++ [s]) cs := by
  unfold Prompt
  simp only [LatencyCall.SentAtOnce, List.mem_cons, reduceCtorEq, false_or, List.mem_append,
    List.not_mem_nil, or_false]
  constructor
  · intro ⟨hws, hs, hrest⟩
    refine ⟨fun w hw => ?_, hrest⟩
    rcases hw with hw | rfl
    · exact hws w hw
    · exact hs
  · intro ⟨hws, hrest⟩
    exact ⟨fun w hw => hws w (Or.inl hw), hws s (Or.inr rfl), hrest⟩

private theorem prompt_release {ws : List Sending} {t : ℚ} {cs : List LatencyCall} :
    Prompt ws (.release t :: cs) ↔
      (∀ s ∈ ws.filter (due t), s.sentAt = s.cameIn) ∧
        Prompt (ws.filter fun s => !s.due t) cs := by
  unfold Prompt
  constructor
  · intro ⟨hws, hrest⟩
    refine ⟨fun s hs => ?_, fun s hs t' ht' => ?_, hrest⟩
    · obtain ⟨hmem, hdue⟩ := List.mem_filter.mp hs
      exact hws s hmem t (List.mem_cons_self ..) hdue
    · exact hws s (List.mem_filter.mp hs).1 t' (List.mem_cons_of_mem _ ht')
  · intro ⟨hdue, hws, hrest⟩
    refine ⟨fun s hs t' ht' hdue' => ?_, hrest⟩
    by_cases hnow : s.due t = true
    · exact hdue s (List.mem_filter.mpr ⟨hs, hnow⟩)
    · rcases List.mem_cons.mp ht' with heq | ht'
      · rw [LatencyCall.release.inj heq] at hdue'
        exact absurd hdue' hnow
      · exact hws s (List.mem_filter.mpr ⟨hs, by simpa using hnow⟩) t' ht' hdue'

/-- **The reports of a schedule**, from any point of it. -/
private theorem reports_iff {all : List Sending} (hall : Captured all) :
    ∀ {cs : List LatencyCall} {n : ℕ} {ws : List Sending} {sim : SimulatedPacketHandler}
      {cap : CapturedPacketHandler}, Coupled all n ws sim cap →
      (∀ s ∈ ws ++ LatencyCall.sendings cs, s ∈ all ∧ n ≤ s.place ∧ s.cameIn ≤ s.sentAt) →
      ((ws ++ LatencyCall.sendings cs).map place).Nodup →
      LatencyCall.InCaptureOrder n ws cs →
      (LatencyCall.reports simBlock sim cs).map (fun r => (r.bits, r.ipLatency)) =
          (LatencyCall.reports capBlock cap cs).map (fun r => (r.bits, r.ipLatency)) ∧
        (LatencyCall.reports simBlock sim cs = LatencyCall.reports capBlock cap cs ↔
          Prompt ws cs) := by
  intro cs
  induction cs with
  | nil =>
      intro n ws sim cap _ _ _ _
      exact ⟨rfl, iff_of_true rfl ⟨fun _ _ _ ht => absurd ht List.not_mem_nil, trivial⟩⟩
  | cons c cs ih =>
      intro n ws sim cap h hmem hone horder
      cases c with
      | send s =>
          rw [LatencyCall.sendings, List.append_cons] at hmem hone
          have hws : ∀ w ∈ ws ++ [s], w ∈ all := fun w hw =>
            (hmem w (List.mem_append_left _ hw)).1
          have hsends := h.send hall (hws s (List.mem_append_right _ (List.mem_singleton_self s)))
            (fun w hw => hws w (List.mem_append_left _ hw))
            (hone.sublist ((List.sublist_append_left _ _).map place))
          rw [prompt_send]
          exact ih hsends hmem hone horder
      | release t =>
          obtain ⟨hplaces, horder⟩ := horder
          have hstep : Coupled all n ws (PacketHandler.step sim t) (PacketHandler.step cap t) :=
            ⟨h.simList, h.capList, h.next⟩
          have hleft : ∀ w ∈ ws, w ∈ all ∧ n ≤ w.place ∧ w.cameIn ≤ w.sentAt := fun w hw =>
            hmem w (List.mem_append_left _ hw)
          obtain ⟨hcoupled, hbits, hip, hiff⟩ := hstep.release (t := t) hall rfl rfl
            (fun w hw => (hleft w hw).1) (fun w hw => (hleft w hw).2.1)
            (fun w hw => (hleft w hw).2.2) hplaces
          have hsub : ((ws.filter fun w => !w.due t) ++ LatencyCall.sendings cs).Sublist
              (ws ++ LatencyCall.sendings cs) := List.filter_sublist.append_right _
          have hbeyond := place_beyond hplaces hone fun s hs => (hmem s hs).2.1
          obtain ⟨hpairs, hall'⟩ := ih hcoupled (fun s hs => ⟨(hmem s (hsub.subset hs)).1,
            hbeyond s hs, (hmem s (hsub.subset hs)).2.2⟩) (hone.sublist (hsub.map place)) horder
          constructor
          · show (_, _) :: _ = (_, _) :: _
            rw [hbits, hip]
            exact congrArg _ hpairs
          · rw [prompt_release, ← hiff, ← hall']
            show _ :: _ = _ :: _ ↔ _
            rw [List.cons.injEq]
            exact Iff.rfl

namespace Schedule

/-- **What the two handlers report.**  In every schedule, and with any configurations: every
release reports the same bits and the same mean IP latency, and the reports are the same
altogether exactly when each packet a release finds due was sent in the instant it came in. -/
theorem reports_agree_iff (c : Schedule) (pktSize : ℤ) (hasInitT : Bool)
    (simC capC : PdcpConfig) (simVerbosity capVerbosity : ℤ) (simSeeds capSeeds : Seeds) :
    let sim := LatencyCall.reports simBlock
      (SimulatedPacketHandler.make pktSize simC simVerbosity simSeeds) c.calls
    let cap := LatencyCall.reports capBlock
      (CapturedPacketHandler.make hasInitT capC capVerbosity capSeeds) c.calls
    sim.map (fun r => (r.bits, r.ipLatency)) = cap.map (fun r => (r.bits, r.ipLatency)) ∧
      (sim = cap ↔ LatencyCall.SentAtOnce c.calls) := by
  intro sim cap
  have hstart : Coupled (LatencyCall.sendings c.calls) 0 []
      (SimulatedPacketHandler.make pktSize simC simVerbosity simSeeds)
      (CapturedPacketHandler.make hasInitT capC capVerbosity capSeeds) :=
    ⟨rfl, ⟨[], .refl _, List.Pairwise.nil, rfl⟩, fun _ _ _ => if_neg fun hset =>
      (by decide : ¬ (-1 : Int32) < -1) hset.1⟩
  obtain ⟨hpairs, hiff⟩ := reports_iff c.captured hstart
    (fun s hs => ⟨hs, Nat.zero_le _, c.causal s hs⟩) c.captured.once c.inOrder
  refine ⟨hpairs, hiff.trans ⟨fun h => h.2, fun h => ⟨fun _ hs => ?_, h⟩⟩⟩
  exact absurd hs List.not_mem_nil

/-- A packet that comes in at `t` and is sent then, and is through the backhaul at `out`. -/
def sentAtOnce (place : ℕ) (t out size : ℚ) : Sending where
  place := place
  simPkt := IpPkt.makeNext t size size (.ofNat place) 0 0
  simBlock :=
    { HarqPkt.make place t t 5 0 size 0 0 with
      tOut := out, pkts := [IpPkt.makeNext t size size (.ofNat place) 0 0] }
  capPkt := IpPkt.make t size size (if place = 0 then 0xFFFFFFFF else .ofNat place)
    (.ofNat (place + 1)) 0 0
  capBlock :=
    { HarqPkt.make place t t 5 0 size 0 0 with
      tOut := out
      pkts := [IpPkt.make t size size (if place = 0 then 0xFFFFFFFF else .ofNat place)
        (.ofNat (place + 1)) 0 0] }
  simAlone := ⟨rfl, rfl, rfl, rfl, rfl⟩
  capAlone := ⟨rfl, rfl, rfl, rfl, rfl⟩
  size := rfl
  currentT := rfl
  sent := rfl
  ipT := rfl
  tOut := rfl
  backhaulD := rfl

/-- Three packets, of which the second is through before the first and is released with it. -/
theorem reports_agree_three : ∃ c : Schedule,
    c.calls = [.send (sentAtOnce 0 0 2 8000), .send (sentAtOnce 1 1 (3 / 2) 400), .release 2,
      .send (sentAtOnce 2 2 3 8000), .release 3] ∧
    LatencyCall.reports simBlock (SimulatedPacketHandler.make 12000 {} 0 {}) c.calls =
      [{ bits := 8400, latency := some (3 / 2), ipLatency := some (3 / 2) },
        { bits := 8000, latency := some 1, ipLatency := some 1 }] ∧
    LatencyCall.reports simBlock (SimulatedPacketHandler.make 12000 {} 0 {}) c.calls =
      LatencyCall.reports capBlock (CapturedPacketHandler.make true {} 0 {}) c.calls := by
  let c : Schedule :=
    { calls := [.send (sentAtOnce 0 0 2 8000), .send (sentAtOnce 1 1 (3 / 2) 400), .release 2,
        .send (sentAtOnce 2 2 3 8000), .release 3]
      captured := ⟨by decide +kernel, by decide +kernel, by decide +kernel⟩
      causal := by decide +kernel
      inOrder := And.intro (by decide +kernel) (And.intro (by decide +kernel) trivial) }
  refine ⟨c, rfl, by decide +kernel,
    (reports_agree_iff c 12000 true {} {} 0 0 {} {}).2.mpr ?_⟩
  exact ⟨fun _ _ _ => rfl, fun _ _ _ => rfl, fun _ _ _ => rfl, trivial⟩

/-- A packet of 8000 bits that comes in at 0 and is sent at 1. -/
def waited : Sending where
  place := 0
  simPkt := IpPkt.makeNext 0 8000 8000 0 0 0
  simBlock := { HarqPkt.make 0 0 1 5 0 8000 0 0 with pkts := [IpPkt.makeNext 0 8000 8000 0 0 0] }
  capPkt := IpPkt.make 0 8000 8000 0xFFFFFFFF 1 0 0
  capBlock :=
    { HarqPkt.make 0 0 1 5 0 8000 0 0 with pkts := [IpPkt.make 0 8000 8000 0xFFFFFFFF 1 0 0] }
  simAlone := ⟨rfl, rfl, rfl, rfl, rfl⟩
  capAlone := ⟨rfl, rfl, rfl, rfl, rfl⟩
  size := rfl
  currentT := rfl
  sent := rfl
  ipT := rfl
  tOut := rfl
  backhaulD := rfl

/-- Released at 2, it has a latency of 1 in one handler and of 2 in the other. -/
theorem reports_differ : ∃ c : Schedule, c.calls = [.send waited, .release 2] ∧
    LatencyCall.reports simBlock (SimulatedPacketHandler.make 12000 {} 0 {}) c.calls =
      [{ bits := 8000, latency := some 1, ipLatency := some 2 }] ∧
    LatencyCall.reports capBlock (CapturedPacketHandler.make true {} 0 {}) c.calls =
      [{ bits := 8000, latency := some 2, ipLatency := some 2 }] := by
  refine ⟨⟨[.send waited, .release 2], ⟨?_, ?_, ?_⟩, ?_, ?_⟩, rfl, ?_, ?_⟩
  · exact List.nodup_singleton _
  · intro s hs s' hs' hlt
    rw [List.mem_singleton.mp hs, List.mem_singleton.mp hs'] at hlt
    exact absurd hlt (lt_irrefl _)
  · intro s hs s' hs' hnext
    rw [List.mem_singleton.mp hs, List.mem_singleton.mp hs'] at hnext
    exact absurd hnext (by decide)
  · intro s hs
    rw [List.mem_singleton.mp hs]
    show (0 : ℚ) ≤ 1
    norm_num
  · have hdue : waited.due 2 = true := by decide +kernel
    have hdues : [waited].filter (due 2) = [waited] := by
      rw [List.filter_cons_of_pos hdue, List.filter_nil]
    refine ⟨?_, trivial⟩
    show ((([waited].filter (due 2)).map place).Perm
      (List.range' 0 ([waited].filter (due 2)).length))
    rw [hdues]
    exact List.Perm.refl _
  · decide +kernel
  · decide +kernel

end Schedule

end NetworkEmulator
