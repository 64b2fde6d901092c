/-
When the release buffer wedges.

With everything a layer holds in `out_pkts` and due, what `release` does not let go it
will never let go.  Whether it lets all go depends on two things about the list.  The
entries have to be complete, and they are when no two packets have one id.  And each
entry that is not dropped has to name the entry before it, or stand where no ids are
compared; that depends on how the packets travelled, and is what can fail.
-/
import NetworkEmulator.Proofs.Conservation
import NetworkEmulator.Proofs.Release

namespace NetworkEmulator

namespace CapturedPacketHandler

/-- Each entry is one to drop, or names the entry before it (the first one: `prev`), or
stands where no ids are compared. -/
def Chained (h : CapturedPacketHandler) : Int32 → List IpPkt → Prop
  | _, [] => True
  | prev, p :: ps =>
    (p.erase = true ∨ { h with prevReleasedId := prev }.checkOrder p.prevUid.toInt32 = true) ∧
      Chained h p.uid.toInt32 ps

instance (h : CapturedPacketHandler) : ∀ prev ps, Decidable (h.Chained prev ps)
  | _, [] => isTrue trivial
  | _, p :: ps =>
    have : Decidable (h.Chained p.uid.toInt32 ps) := instDecidableChained h _ ps
    inferInstanceAs (Decidable (_ ∧ _))

/-- Entries that are due pass when they are complete and chained. -/
theorem passAll_iff_chained {h : CapturedPacketHandler} {ps : List IpPkt} :
    ∀ prev : Int32, (∀ p ∈ ps, p.tOut ≤ h.currentT) →
      (h.passAll prev ps = true ↔ (∀ p ∈ ps, p.isReady = true) ∧ h.Chained prev ps) := by
  induction ps with
  | nil => intro prev _; simp [passAll, Chained]
  | cons p ps ih =>
      intro prev hdue
      have hrest := ih p.uid.toInt32 fun q hq => hdue q (List.mem_cons_of_mem _ hq)
      rw [passAll, Chained, Bool.and_eq_true, hrest, List.forall_mem_cons]
      have hhead : h.passes prev p = true ↔ p.isReady = true ∧
          (p.erase = true ∨
            { h with prevReleasedId := prev }.checkOrder p.prevUid.toInt32 = true) := by
        simp [passes, hdue p (List.mem_cons_self ..)]
      rw [hhead]
      constructor
      · rintro ⟨⟨hready, hchain⟩, hreadys, hchains⟩
        exact ⟨⟨hready, hreadys⟩, hchain, hchains⟩
      · rintro ⟨⟨hready, hreadys⟩, hchain, hchains⟩
        exact ⟨⟨hready, hchain⟩, hreadys, hchains⟩

/-! ### One entry for each packet -/

theorem addData_uids {recv : IpPkt} {ps out : List IpPkt} (h : addData recv ps = some out) :
    out.map IpPkt.uid = ps.map IpPkt.uid := by
  obtain ⟨pre, p, post, rfl, -, rfl⟩ := addData_some h
  rw [List.map_append, List.map_append]
  rfl

theorem removeData_uids {id : UInt32} {bits : ℚ} {ps out : List IpPkt}
    (h : removeData id bits ps = some out) : out.map IpPkt.uid = ps.map IpPkt.uid := by
  obtain ⟨pre, p, post, rfl, -, rfl⟩ := removeData_some h
  rw [List.map_append, List.map_append]
  rfl

/-- No two entries are of one packet. -/
def OneEntryEach (ps : List IpPkt) : Prop := (ps.map IpPkt.uid).Nodup

theorem OneEntryEach.concat {ps : List IpPkt} (h : OneEntryEach ps) {p : IpPkt}
    (hp : p.uid ∉ ps.map IpPkt.uid) : OneEntryEach (ps ++ [p]) := by
  rw [OneEntryEach, List.map_append, List.map_singleton, List.nodup_append]
  refine ⟨h, List.nodup_singleton _, ?_⟩
  intro u hu v hv huv
  rw [List.mem_singleton] at hv
  exact hp (hv ▸ huv ▸ hu)

theorem OneEntryEach.sort {ps : List IpPkt} (h : OneEntryEach ps) :
    OneEntryEach (sortById ps) := ((sortById_perm ps).map IpPkt.uid).nodup_iff.mpr h

theorem OneEntryEach.pushOne (tOut ipT : ℚ) {ps : List IpPkt} (h : OneEntryEach ps)
    (p : IpPkt) : OneEntryEach (pushOne tOut ipT ps p) := by
  simp only [CapturedPacketHandler.pushOne]
  split
  · rename_i out hout
    rw [OneEntryEach, addData_uids hout]
    exact h
  · rename_i hnone
    have hnew := addData_none hnone
    exact h.concat hnew

private theorem OneEntryEach.dropOne (tOut ipT : ℚ) {ps : List IpPkt} (h : OneEntryEach ps)
    (p : IpPkt) : OneEntryEach (dropOne tOut ipT ps p) := by
  simp only [CapturedPacketHandler.dropOne]
  split
  · rename_i out hout
    rw [OneEntryEach, removeData_uids hout]
    exact h
  · rename_i hnone
    exact h.concat (p := { p with tOut := tOut, ipT := ipT, erase := true })
      (removeData_none hnone)

theorem OneEntryEach.foldl {f : List IpPkt → IpPkt → List IpPkt}
    (hf : ∀ ps p, OneEntryEach ps → OneEntryEach (f ps p)) (qs : List IpPkt) :
    ∀ ps, OneEntryEach ps → OneEntryEach (qs.foldl f ps) := by
  induction qs with
  | nil => intro ps h; exact h
  | cons q qs ih => intro ps h; exact ih (f ps q) (hf ps q h)

theorem OneEntryEach.push {h : CapturedPacketHandler} (hone : OneEntryEach h.outPkts)
    (b : HarqPkt) : OneEntryEach (h.push b).outPkts :=
  (OneEntryEach.foldl (fun _ p hps => hps.pushOne _ _ p) b.pkts h.outPkts hone).sort

theorem OneEntryEach.drop {h : CapturedPacketHandler} (hone : OneEntryEach h.outPkts)
    (b : HarqPkt) : OneEntryEach (h.drop b).outPkts :=
  OneEntryEach.foldl (fun _ p hps => hps.dropOne _ _ p) b.pkts h.outPkts hone

theorem OneEntryEach.release {h : CapturedPacketHandler} (hone : OneEntryEach h.outPkts) :
    OneEntryEach h.release.1.outPkts := by
  obtain ⟨gone, hout, -⟩ := release_releases h
  rw [OneEntryEach, hout, List.map_append] at hone
  exact hone.of_append_right

end CapturedPacketHandler

open CapturedPacketHandler (OneEntryEach)

/-- A packet in the ingress queue has all of its bits, so no entry is of it. -/
theorem ingress_uid {c : Custody CapturedPacketHandler} (htok : TokensOk c)
    (hnd : (c.ingested.map IpPkt.uid).Nodup) (hin : Intake c) {p : IpPkt}
    (hp : p ∈ c.packetH.ingressPkts) : p.uid ∉ c.packetH.outPkts.map IpPkt.uid := by
  intro hmem
  obtain ⟨q, hq, hu⟩ := List.mem_map.mp hmem
  have hing : p ∈ c.ingested := hin.waiting.subset hp
  have hup : p ∈ c.upstream := List.mem_append_left _ hp
  have hheld : q ∈ Keeper.kept c.packetH := List.mem_append_left _ hq
  have hwhole : p.tokens = p.allTokens := by
    rw [IpPkt.tokens, IpPkt.allTokens, (hin.fresh p hing).whole]
  have htotal := htok.tokens p.uid
  rw [show IpPkt.allTokensOf p.uid = fun b => if b.uid = p.uid then b.allTokens else 0 from rfl,
    weight_key IpPkt.uid IpPkt.allTokens hnd hing, Custody.all, weight_append] at htotal
  have hp' : p.tokensOf p.uid ≤ weight (IpPkt.tokensOf p.uid) c.upstream :=
    le_weight (fun x hx => (htok.whole x (List.mem_append_left _ hx)).tokensOf_nonneg _) hup
  have hq' : q.tokensOf p.uid ≤ weight (IpPkt.tokensOf p.uid) (Keeper.kept c.packetH) :=
    le_weight (fun x hx => (htok.whole x (List.mem_append_right _ hx)).tokensOf_nonneg _) hheld
  rw [IpPkt.tokensOf, if_pos rfl] at hp'
  rw [IpPkt.tokensOf, if_pos hu] at hq'
  have hpos := (htok.whole q (List.mem_append_right _ hheld)).tokens_pos
  linarith

theorem OneEntryEach.move {k : MoveKind} {c c' : Custody CapturedPacketHandler}
    (hm : Move c k c') (htok : TokensOk c) (hnd : (c.ingested.map IpPkt.uid).Nodup)
    (hin : Intake c) (hone : OneEntryEach c.packetH.outPkts) : OneEntryEach c'.packetH.outPkts := by
  have hpopped {p : IpPkt} {h : CapturedPacketHandler}
      (hpop : PacketHandler.popIngressPkt c.packetH = some (p, h)) :
      h.outPkts = c.packetH.outPkts := popIngressPkt_held hpop
  cases hm with
  | ingest t clock =>
      have hheld : (PacketHandler.ingest c.packetH t clock).1.outPkts = c.packetH.outPkts :=
        (Keeper.kept_ingest c.packetH t clock).1
      show OneEntryEach (PacketHandler.ingest c.packetH t clock).1.outPkts
      rw [hheld]
      exact hone
  | enter hpop =>
      rw [← hpopped hpop] at hone
      exact hone
  | @refuse p h hpop =>
      have hmem : p ∈ c.packetH.ingressPkts :=
        (popIngressPkt_spec hpop).1 ▸ List.mem_cons_self ..
      have hnew := ingress_uid htok hnd hin hmem
      rw [← hpopped hpop] at hone hnew
      exact (hone.concat (p := { p with erase := true, tOut := h.currentT }) hnew).sort
  | takeDropped => exact hone.drop _
  | drop => exact hone.drop _
  | push => exact hone.push _
  | release => exact hone.release
  | receive | tick | recordError | fetch | unstore | store | discard => exact hone

namespace PdcpLayer

open CapturedPacketHandler

/-- What captured runs keep of the entries. -/
structure EntriesInv (c : Custody CapturedPacketHandler) : Prop where
  captured : CapturedInv c
  intake : Intake c
  accounted : Accounted c
  one : (c.ingested.map IpPkt.uid).Nodup → OneEntryEach c.packetH.outPkts

theorem EntriesInv.move {k : MoveKind} {c c' : Custody CapturedPacketHandler}
    (hm : Move c k c') (h : EntriesInv c) : EntriesInv c' := by
  refine ⟨h.captured.move hm, h.intake.move hm, h.accounted.move hm, fun hnd => ?_⟩
  obtain ⟨new, lost, hf⟩ := hm.carries (G := ⊤) (fun _ => trivial) (fun _ _ => trivial)
  have hold : (c.ingested.map IpPkt.uid).Nodup := by
    rw [hf.ingested, List.map_append] at hnd
    exact hnd.of_append_left
  exact OneEntryEach.move hm (h.captured.tokens hold) hold h.intake (h.one hold)

theorem entriesInv_captured (cfg : PacketHandlerConfig) (verbosity : ℤ) (seeds : Seeds)
    (budgetS : ℚ) : EntriesInv ((captured cfg verbosity seeds budgetS).custody none) :=
  ⟨captured_capturedInv cfg verbosity seeds budgetS, ⟨List.suffix_rfl, by rintro p ⟨⟩⟩,
    ⟨by rintro p ⟨⟩, fun u => rfl⟩, fun _ => List.nodup_nil⟩

theorem exec_entriesInv {cfg : PacketHandlerConfig} {verbosity : ℤ} {seeds : Seeds}
    {budgetS : ℚ} {fuel : ℕ} {es : List (Event NfqPacketMetadata Draws)}
    {s : PdcpLayer CapturedPacketHandler}
    (hrun : (captured cfg verbosity seeds budgetS).exec fuel es = some s) :
    EntriesInv (s.custody none) :=
  exec_inv EntriesInv.move (entriesInv_captured cfg verbosity seeds budgetS) hrun

/-- The entry of a packet none of which is upstream has all of its bits. -/
private theorem entry_ready {s : PdcpLayer CapturedPacketHandler}
    (hinv : EntriesInv (s.custody none)) (hids : s.capturedIds.Nodup)
    (hup : (s.custody none).upstream = []) : ∀ p ∈ s.packetH.outPkts, p.isReady = true := by
  intro p hp
  have hnd := ingested_nodup hinv.captured hids
  have hone : OneEntryEach s.packetH.outPkts := hinv.one hnd
  have hheld : p ∈ (s.custody none).all :=
    List.mem_append_right _ (List.mem_append_left _ hp)
  obtain ⟨q, hq, hu, -, hs, -⟩ := stems_of_distinct hinv.captured hids p hheld
  have hdone : weight (IpPkt.bitsOf p.uid) s.packetH.done = 0 := by
    refine weight_eq_zero fun d hd => if_neg fun hdu => ?_
    exact (done_nodup hinv.captured hids).2 d hd p (List.mem_append_right _ hp) hdu.symm
  have hentry : weight (IpPkt.bitsOf p.uid) s.packetH.outPkts = p.size :=
    weight_key IpPkt.uid IpPkt.size hone hp
  have htotal : weight (IpPkt.bitsOf p.uid) (s.custody none).all = p.originalSize := by
    rw [hinv.accounted.total, ← hs, ← hu]
    exact weight_key IpPkt.uid IpPkt.originalSize hnd hq
  have hall : (s.custody none).all = s.packetH.outPkts ++ s.packetH.done := by
    rw [Custody.all, hup]
    rfl
  rw [hall, weight_append, hdone, hentry, add_zero] at htotal
  rw [IpPkt.isReady_iff, htotal, sub_self, abs_zero]
  norm_num [bitRoundMargin]

/-- A captured packet of some bytes that is nowhere else has its verdict. -/
private theorem answered {s : PdcpLayer CapturedPacketHandler} (hinv : EntriesInv (s.custody none))
    (hup : (s.custody none).upstream = []) (hout : s.packetH.outPkts = [])
    (hq : s.packetH.pktCptr.capturedPackets = []) {info : CapturedPacketInfo}
    (hinfo : info ∈ s.packetH.pktCptr.captureLog) (hbytes : 0 < info.bytes) :
    info.pktId ∈ s.verdictIds := by
  obtain ⟨popped, hlog, hing, -⟩ := hinv.captured.chronicle.intake
  change s.packetH.pktCptr.captureLog = popped ++ s.packetH.pktCptr.capturedPackets at hlog
  rw [hq, List.append_nil] at hlog
  obtain ⟨t, ht, htu, hts⟩ := ticket_of_mem firstPrevUid (hlog ▸ hinfo)
  rw [← hing] at ht
  obtain ⟨p, hp, rfl⟩ := List.mem_map.mp ht
  have hall : (s.custody none).all = s.packetH.done := by
    rw [Custody.all, hup]
    show s.packetH.outPkts ++ s.packetH.done = _
    rw [hout, List.nil_append]
  rw [verdictIds_eq hinv.captured.chronicle]
  by_contra hnone
  have hzero : weight (IpPkt.bitsOf info.pktId) s.packetH.done = 0 := by
    refine weight_eq_zero fun d hd => if_neg fun hdu => ?_
    exact hnone (hdu ▸ List.mem_map_of_mem hd)
  have hpos : (0 : ℚ) < weight (IpPkt.originalBitsOf info.pktId) s.packetH.ingested := by
    have hle : p.originalBitsOf info.pktId
        ≤ weight (IpPkt.originalBitsOf info.pktId) s.packetH.ingested := by
      refine le_weight (fun x hx => ?_) hp
      unfold IpPkt.originalBitsOf
      split
      · have hfresh := hinv.intake.fresh x hx
        exact hfresh.whole ▸ hfresh.nonneg
      · exact le_rfl
    have hsize : p.originalBitsOf info.pktId = info.bytes * 8 := by
      have hu : p.uid = info.pktId := htu
      rw [IpPkt.originalBitsOf, if_pos hu]
      exact hts
    rw [hsize] at hle
    have hb : (0 : ℚ) < info.bytes := by exact_mod_cast hbytes
    linarith
  have htotal := hinv.accounted.total info.pktId
  rw [hall, hzero] at htotal
  exact absurd htotal hpos.ne

/-- **Whether one `release` clears the buffer.**  In every reachable state in which
everything captured is in `out_pkts`, and due there, `release` answers for all packets
and empties `out_pkts` exactly when the entries are complete and each that is not dropped
names the one before it; and the entries are complete if the ids are distinct. -/
theorem release_never_wedges_iff (cfg : PacketHandlerConfig) (verbosity : ℤ) (seeds : Seeds)
    (budgetS : ℚ) (fuel : ℕ) (es : List (Event NfqPacketMetadata Draws))
    (s : PdcpLayer CapturedPacketHandler)
    (hrun : (captured cfg verbosity seeds budgetS).exec fuel es = some s)
    (hup : (s.custody none).upstream = []) (hq : s.packetH.pktCptr.capturedPackets = [])
    (hdue : ∀ p ∈ s.packetH.outPkts, p.tOut ≤ s.packetH.currentT) :
    ((s.release.1.packetH.outPkts = [] ∧ ∀ info ∈ s.packetH.pktCptr.captureLog, 0 < info.bytes →
        info.pktId ∈ s.release.1.verdictIds) ↔
      (∀ p ∈ s.packetH.outPkts, p.isReady = true) ∧
        s.packetH.Chained s.packetH.prevReleasedId s.packetH.outPkts) ∧
    (s.capturedIds.Nodup → ∀ p ∈ s.packetH.outPkts, p.isReady = true) := by
  have hinv := exec_entriesInv hrun
  have hempties : s.release.1.packetH.outPkts = [] ↔ (∀ p ∈ s.packetH.outPkts, p.isReady = true) ∧
      s.packetH.Chained s.packetH.prevReleasedId s.packetH.outPkts :=
    (release_empties s.packetH).trans (passAll_iff_chained _ hdue)
  refine ⟨?_, fun hids => entry_ready hinv hids hup⟩
  rw [← hempties]
  refine ⟨fun h => h.1, fun hout => ⟨hout, fun info hinfo hbytes => ?_⟩⟩
  obtain ⟨gone, -, hrel⟩ := release_releases s.packetH
  have hinv' : EntriesInv (s.release.1.custody none) := hinv.move (Move.release _)
  have hup' : (s.release.1.custody none).upstream = [] := by
    rw [← hup]
    simp only [Custody.upstream]
    rw [show (PacketHandler.base (s.release.1.custody none).packetH).ingressPkts
      = (PacketHandler.base (s.custody none).packetH).ingressPkts from
        (PacketHandler.intake_release s.packetH).ingress]
    rfl
  rw [← hrel.captureLog] at hinfo
  exact answered hinv' hup' hout (hrel.capturedPackets.trans hq) hinfo hbytes

/-- Two packets, the second cut in two by the grants. -/
theorem release_never_wedges_cut :
    ∃ s : PdcpLayer CapturedPacketHandler, (captured {} 0 {} (35 / 100)).exec 5
        [.env ⟨1000, 7, .notEct, []⟩, .env ⟨1000, 8, .ect1, []⟩,
          .step (1 / 1000) fun _ => 1 / 1000, .handlePkt 9000 5 0 0,
          .handlePkt 9000 5 0 0] = some s ∧
      s.packetH.outPkts.length = 2 ∧ s.release.1.packetH.outPkts = [] := by
  refine Runs.exists_of_view (fun s => decide (s.packetH.outPkts.length = 2 ∧
      (s.custody none).upstream = [] ∧ s.packetH.pktCptr.capturedPackets = [] ∧
      s.capturedIds = [7, 8] ∧ (∀ p ∈ s.packetH.outPkts, p.tOut ≤ s.packetH.currentT) ∧
      s.packetH.Chained s.packetH.prevReleasedId s.packetH.outPkts))
    (x := true) (by decide +kernel) fun s hs hview => ?_
  obtain ⟨hlen, hup, hq, hids, hdue, hchain⟩ := of_decide_eq_true hview
  obtain ⟨hiff, hready⟩ := release_never_wedges_iff _ _ _ _ _ _ s hs hup hq hdue
  exact ⟨hlen, (hiff.mpr ⟨hready (by rw [hids]; decide), hchain⟩).1⟩

/-- A packet overtakes another in the L4S queue and goes first.  The other one is then
complete and due, with nothing left anywhere else, and stays in `out_pkts`. -/
theorem release_wedges :
    ∃ s : PdcpLayer CapturedPacketHandler,
      (captured { l4sC := { enabled := true } } 0 {} (35 / 100)).exec 5
        [.env ⟨1000, 1, .notEct, []⟩, .env ⟨1000, 2, .ect1, []⟩,
          .step (1 / 2000) fun _ => 1 / 2000, .handlePkt 8000 5 0 0, .release,
          .handlePkt 8000 5 0 0, .step 1 fun _ => 1] = some s ∧
      (s.custody none).upstream = [] ∧ s.packetH.pktCptr.capturedPackets = [] ∧
      (∀ p ∈ s.packetH.outPkts, p.isReady = true ∧ p.tOut ≤ s.packetH.currentT) ∧
      s.verdictIds = [2] ∧ s.release.1.packetH.outPkts ≠ [] ∧ s.release.1.verdictIds = [2] := by
  exact Runs.exists_of_view (fun s => decide ((s.custody none).upstream = [] ∧
      s.packetH.pktCptr.capturedPackets = [] ∧
      (∀ p ∈ s.packetH.outPkts, p.isReady = true ∧ p.tOut ≤ s.packetH.currentT) ∧
      s.verdictIds = [2] ∧ s.release.1.packetH.outPkts ≠ [] ∧ s.release.1.verdictIds = [2]))
    (x := true) (by decide +kernel) fun s hs hview => of_decide_eq_true hview

end PdcpLayer

end NetworkEmulator
