/-
What waits behind a packet that cannot go.

Without `order_packets` no entry of `out_pkts` depends on another one, and the handler of
simulated traffic steps over what is not due.  The captured one does not: the `for` of
`release` leaves its list at the first entry that is incomplete or not due, and what
could go behind it stays.
-/
import NetworkEmulator.Library.LinearSearch
import NetworkEmulator.Proofs.Release

namespace NetworkEmulator

open PacketHandlerBase (ReleaseTotals)
open LinearSearch (Unblocked)

namespace CapturedPacketHandler

/-- The entry is complete, and marked for erasure or due. -/
def canGo (h : CapturedPacketHandler) (p : IpPkt) : Bool :=
  p.isReady && (p.erase || decide (p.tOut ≤ h.currentT))

/-- Without `order_packets` the tests of `release` are about the entry alone. -/
theorem passes_unordered {h : CapturedPacketHandler} (hplain : h.doCheck = false) (prev : Int32)
    (p : IpPkt) : h.passes prev p = h.canGo p := by
  unfold passes canGo checkOrder
  rw [if_neg (by simp [hplain]), Bool.true_and]

/-- The bits of the entries accepted. -/
def acceptedBits (ps : List IpPkt) : ℚ := ((ps.filter fun p => !p.erase).map IpPkt.originalSize).sum

/-- One call of `release` answers for every entry that can go, takes out these and no
others, and returns the bits of those it accepts. -/
structure ReleasesAll (h : CapturedPacketHandler) : Prop where
  verdicts : h.release.1.pktCptr.verdicts
    = h.pktCptr.verdicts ++ (h.outPkts.filter h.canGo).map fun p => (p.uid, p.action)
  kept : h.release.1.outPkts = h.outPkts.filter fun p => !h.canGo p
  bits : h.release.2 = acceptedBits (h.outPkts.filter h.canGo)

/-! ### Where the loop stops -/

/-- The sum a pass of the loop leaves. -/
private theorem releaseOne_bits {h h' : CapturedPacketHandler} {p : IpPkt} {r r' : ReleaseTotals}
    (hone : h.releaseOne p r = some (h', r')) : r'.bits = r.bits + acceptedBits [p] := by
  obtain ⟨-, ⟨he, rfl, -⟩ | ⟨he, -, -, rfl, -⟩⟩ := releaseOne_cases hone
  · simp [acceptedBits, he]
  · simp [acceptedBits, he]

private theorem acceptedBits_cons (p : IpPkt) (ps : List IpPkt) :
    acceptedBits (p :: ps) = acceptedBits [p] + acceptedBits ps := by
  unfold acceptedBits
  rw [← List.sum_append, ← List.map_append, ← List.filter_append]
  rfl

/-- The tests read the clock and `order_packets`, which no pass changes. -/
private theorem releaseOne_canGo {h h' : CapturedPacketHandler} {p : IpPkt} {r r' : ReleaseTotals}
    (hone : h.releaseOne p r = some (h', r')) : h'.doCheck = h.doCheck ∧ h'.canGo = h.canGo := by
  obtain ⟨hplain, hclock⟩ := releaseOne_next hone
  exact ⟨hplain, funext fun q => by rw [canGo, canGo, hclock]⟩

/-- **Without `order_packets` the loop lets go the entries before the first that cannot
go.** -/
theorem releaseLoop_unordered (ps : List IpPkt) :
    ∀ (h : CapturedPacketHandler) (r : ReleaseTotals), h.doCheck = false →
      (releaseLoop ps h r).1.pktCptr.verdicts
          = h.pktCptr.verdicts ++ (ps.takeWhile h.canGo).map (fun p => (p.uid, p.action)) ∧
        (releaseLoop ps h r).2.1 = ps.dropWhile h.canGo ∧
        (releaseLoop ps h r).2.2.bits = r.bits + acceptedBits (ps.takeWhile h.canGo) := by
  induction ps with
  | nil => intro h r _; simp [releaseLoop, acceptedBits]
  | cons p ps ih =>
      intro h r hplain
      have hsome := releaseOne_isSome h p r
      rw [passes_unordered hplain] at hsome
      simp only [releaseLoop]
      cases hone : h.releaseOne p r with
      | none =>
          rw [hone] at hsome
          have hstop : ¬h.canGo p = true := by simp [← hsome]
          rw [List.takeWhile_cons_of_neg hstop, List.dropWhile_cons_of_neg hstop]
          simp [acceptedBits]
      | some res =>
          obtain ⟨h', r'⟩ := res
          rw [hone] at hsome
          have hgo : h.canGo p = true := hsome.symm
          obtain ⟨hplain', hsame⟩ := releaseOne_canGo hone
          obtain ⟨hverdicts, hkept, hbits⟩ := ih h' r' (hplain'.trans hplain)
          rw [List.takeWhile_cons_of_pos hgo, List.dropWhile_cons_of_pos hgo, ← hsame]
          refine ⟨?_, hkept, ?_⟩
          · rw [hverdicts, (releaseOne_answer hone).1, List.map_cons, List.append_assoc]
            rfl
          · rw [hbits, releaseOne_bits hone, add_assoc, ← acceptedBits_cons]

/-- **Nothing that could go is left behind** exactly when nothing that can go stands behind
an entry that cannot. -/
theorem releasesAll_iff {h : CapturedPacketHandler} (hplain : h.doCheck = false) :
    h.ReleasesAll ↔ Unblocked h.canGo h.outPkts := by
  obtain ⟨hverdicts, hkept, hbits⟩ := releaseLoop_unordered h.outPkts h {} hplain
  constructor
  · intro hall
    rw [← LinearSearch.dropWhile_eq_filter_iff, ← hkept]
    exact hall.kept
  · intro hfree
    rw [LinearSearch.takeWhile_eq_filter_iff.mpr hfree] at hverdicts hbits
    rw [LinearSearch.dropWhile_eq_filter_iff.mpr hfree] at hkept
    exact ⟨hverdicts, hkept, hbits.trans (zero_add _)⟩

end CapturedPacketHandler

/-! ### Over runs -/

private theorem ingest_doCheck (h : CapturedPacketHandler) (clock : Draws) :
    (h.ingest clock).1.doCheck = h.doCheck :=
  CapturedPacketHandler.ingest_rule (P := fun g => g.doCheck = h.doCheck) (fun _ _ hg => hg) rfl
    clock

private theorem popIngressPkt_doCheck {h h' : CapturedPacketHandler} {p : IpPkt}
    (hpop : PacketHandler.popIngressPkt h = some (p, h')) : h'.doCheck = h.doCheck := by
  obtain ⟨rest, -, rfl⟩ := PacketHandler.popIngressPkt_eq_some hpop
  rfl

private theorem releaseLoop_doCheck (ps : List IpPkt) (h : CapturedPacketHandler)
    (r : ReleaseTotals) : (CapturedPacketHandler.releaseLoop ps h r).1.doCheck = h.doCheck :=
  CapturedPacketHandler.releaseLoop_rule (P := fun g => g.doCheck = h.doCheck)
    (fun hone hg => (CapturedPacketHandler.releaseOne_canGo hone).1.trans hg) ps r rfl

/-- `order_packets` is read once, by the constructor. -/
private theorem Move.doCheck {k : MoveKind} {c c' : Custody CapturedPacketHandler}
    (hm : Move c k c') : c'.packetH.doCheck = c.packetH.doCheck := by
  cases hm with
  | release => exact releaseLoop_doCheck _ _ _
  | ingest t clock => exact ingest_doCheck _ clock
  | enter hpop => exact popIngressPkt_doCheck hpop
  | refuse hpop =>
      have hpopped := popIngressPkt_doCheck hpop
      exact hpopped
  | receive | tick | recordError | takeDropped | drop | push | fetch | unstore | store
  | discard => rfl

namespace PdcpLayer

/-- **Nothing complete and due, or dropped, is left behind, exactly when none of it stands
behind an entry that cannot go.**  This is so in every state reached without
`order_packets`, with either backend, and for every current time. -/
theorem unordered_releasesAll (cfg : PacketHandlerConfig) (hcfg : cfg.pdcpC.orderPackets = false)
    (verbosity : ℤ) (seeds : Seeds) (budgetS : ℚ) (fuel : ℕ)
    (es : List (Event NfqPacketMetadata Draws)) (s : PdcpLayer CapturedPacketHandler)
    (hrun : (captured cfg verbosity seeds budgetS).exec fuel es = some s) (t : ℚ) :
    (PacketHandler.step s.packetH t).ReleasesAll
      ↔ Unblocked (PacketHandler.step s.packetH t).canGo s.packetH.outPkts := by
  have hplain : s.packetH.doCheck = false :=
    exec_inv (I := fun c => c.packetH.doCheck = false)
      (fun hm hold => hm.doCheck.trans hold) hcfg hrun
  exact CapturedPacketHandler.releasesAll_iff (h := PacketHandler.step s.packetH t) hplain

/-- Two packets sent one after the other: the backhaul holds up neither, and both go. -/
theorem unordered_releasesAll_pair :
    ∃ s : PdcpLayer CapturedPacketHandler,
      (captured { pdcpC := { orderPackets := false } } 0 {} (1 / 10)).exec 5
        [.env ⟨1000, 1, .notEct, []⟩, .env ⟨1000, 2, .notEct, []⟩,
          .step (1 / 10000) fun _ => 1 / 10000, .handlePkt 8000 5 0 0,
          .handlePkt 8000 5 0 0] = some s ∧
      (s.packetH.outPkts.map IpPkt.uid) = [1, 2] ∧
      (PacketHandler.step s.packetH (2 / 10000)).ReleasesAll := by
  refine Runs.exists_of_view (fun s => (s.packetH.outPkts.map IpPkt.uid,
      decide (Unblocked (PacketHandler.step s.packetH (2 / 10000)).canGo s.packetH.outPkts)))
    (x := ([1, 2], true)) (by decide +kernel) fun s hs hview => ?_
  simp only [Prod.mk.injEq, decide_eq_true_eq] at hview
  exact ⟨hview.1, (unordered_releasesAll _ rfl _ _ _ _ _ s hs _).mpr hview.2⟩

/-- The backhaul holds up the first of two packets; the other, complete and due, is left
behind it. -/
theorem unordered_leaves_behind :
    ∃ s : PdcpLayer CapturedPacketHandler,
      (captured { pdcpC := { orderPackets := false, bhDVar := 1 } } 0
          { gaussDist := fun n => if n = 0 then 1 else 0 } (1 / 10)).exec 5
        [.env ⟨1000, 1, .notEct, []⟩, .env ⟨1000, 2, .notEct, []⟩,
          .step (1 / 10000) fun _ => 1 / 10000, .handlePkt 8000 5 0 0,
          .handlePkt 8000 5 0 0] = some s ∧
      (s.packetH.outPkts.map fun p => (p.uid, s.packetH.canGo p)) = [(1, false), (2, true)] ∧
      s.packetH.release.1.pktCptr.verdicts = [] ∧
      s.packetH.release.1.outPkts.map IpPkt.uid = [1, 2] ∧ ¬s.packetH.ReleasesAll := by
  refine Runs.exists_of_view (fun s => (s.packetH.outPkts.map fun p => (p.uid, s.packetH.canGo p),
      s.packetH.release.1.pktCptr.verdicts, s.packetH.release.1.outPkts.map IpPkt.uid,
      (s.packetH.outPkts.filter fun p => !s.packetH.canGo p).map IpPkt.uid))
    (x := ([(1, false), (2, true)], [], [1, 2], [1])) (by decide +kernel) fun s hs hview => ?_
  simp only [Prod.mk.injEq] at hview
  refine ⟨hview.1, hview.2.1, hview.2.2.1, fun hall => ?_⟩
  have hkept := congrArg (List.map IpPkt.uid) hall.kept
  rw [hview.2.2.1, hview.2.2.2] at hkept
  revert hkept
  decide

end PdcpLayer

end NetworkEmulator
