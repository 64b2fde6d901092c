/-
The order in which captured packets are released.

`release` takes entries off the head of `out_pkts` for as long as they pass, so all it
does is decided by one predicate, `passAll`, on the list and the id remembered before
it.  An entry that is compared with the id remembered stands right behind the packet
let go last.  Two kinds are not compared: those that are dropped, and all while the id
remembered is negative.  Along runs in which these keep to the order nevertheless,
packets are accepted in capture order.
-/
import NetworkEmulator.Library.InOrder
import NetworkEmulator.Proofs.Verdicts

namespace NetworkEmulator

open PacketHandlerBase (ReleaseTotals)

namespace CapturedPacketHandler

/-! ### What one call lets go -/

/-- The entry passes the tests of `release` when `prev` is the id remembered. -/
def passes (h : CapturedPacketHandler) (prev : Int32) (p : IpPkt) : Bool :=
  p.isReady && (p.erase || ({ h with prevReleasedId := prev }.checkOrder p.prevUid.toInt32 &&
    decide (p.tOut ≤ h.currentT)))

/-- The entries pass one after another. -/
def passAll (h : CapturedPacketHandler) : Int32 → List IpPkt → Bool
  | _, [] => true
  | prev, p :: ps => h.passes prev p && passAll h p.uid.toInt32 ps

/-- The id remembered when the entries `l` have been let go. -/
def rememberedAfter (prev : Int32) (l : List IpPkt) : Int32 :=
  (l.map fun p => p.uid.toInt32).getLastD prev

@[simp] theorem rememberedAfter_nil (prev : Int32) : rememberedAfter prev [] = prev := rfl

theorem rememberedAfter_cons (prev : Int32) (p : IpPkt) (l : List IpPkt) :
    rememberedAfter prev (p :: l) = rememberedAfter p.uid.toInt32 l := by
  rw [rememberedAfter, List.map_cons, List.getLastD_cons, rememberedAfter]

theorem rememberedAfter_append (prev : Int32) (l m : List IpPkt) :
    rememberedAfter prev (l ++ m) = rememberedAfter (rememberedAfter prev l) m := by
  induction l generalizing prev with
  | nil => rfl
  | cons p l ih => rw [List.cons_append, rememberedAfter_cons, ih, rememberedAfter_cons]

theorem passAll_append (h : CapturedPacketHandler) (l m : List IpPkt) :
    ∀ prev, h.passAll prev (l ++ m)
      = (h.passAll prev l && h.passAll (rememberedAfter prev l) m) := by
  induction l with
  | nil => intro prev; simp [passAll]
  | cons p l ih =>
      intro prev
      rw [List.cons_append, passAll, passAll, ih, rememberedAfter_cons, Bool.and_assoc]

/-- A pass of the loop goes on exactly when the entry passes. -/
theorem releaseOne_isSome (h : CapturedPacketHandler) (p : IpPkt) (r : ReleaseTotals) :
    (h.releaseOne p r).isSome = h.passes h.prevReleasedId p := by
  unfold releaseOne passes
  by_cases hready : p.isReady = true
  · rw [if_pos hready, hready, Bool.true_and]
    by_cases herase : p.erase = true
    · rw [if_pos herase, herase]; rfl
    · rw [if_neg herase]
      have hfalse : p.erase = false := by simpa using herase
      rw [hfalse, Bool.false_or]
      by_cases hcheck : h.checkOrder p.prevUid.toInt32 = true
      · rw [if_pos hcheck, show ({ h with prevReleasedId := h.prevReleasedId } :
          CapturedPacketHandler).checkOrder p.prevUid.toInt32 = true from hcheck, Bool.true_and]
        by_cases hdue : p.tOut ≤ h.currentT
        · rw [if_pos hdue, decide_eq_true hdue]
          simp only
          split <;> rfl
        · rw [if_neg hdue, decide_eq_false hdue]; rfl
      · rw [if_neg hcheck, show ({ h with prevReleasedId := h.prevReleasedId } :
          CapturedPacketHandler).checkOrder p.prevUid.toInt32 = false by simpa using hcheck]
        rfl
  · have hfalse : p.isReady = false := by simpa using hready
    rw [if_neg hready, hfalse]; rfl

/-- The tests read the clock and `order_packets`, which no pass changes. -/
private theorem passAll_congr {h h' : CapturedPacketHandler} (hc : h'.doCheck = h.doCheck)
    (ht : h'.currentT = h.currentT) (ps : List IpPkt) :
    ∀ prev, h'.passAll prev ps = h.passAll prev ps := by
  induction ps with
  | nil => intro prev; rfl
  | cons p ps ih =>
      intro prev
      rw [passAll, passAll, ih]
      simp only [passes, checkOrder, hc, ht]

/-- What a pass leaves for the next. -/
theorem releaseOne_next {h h' : CapturedPacketHandler} {p : IpPkt} {r r' : ReleaseTotals}
    (hone : h.releaseOne p r = some (h', r')) :
    h'.doCheck = h.doCheck ∧ h'.currentT = h.currentT := by
  obtain ⟨v, hbase, -, -, -, hc, -⟩ := releaseOne_verdict hone
  exact ⟨hc, by rw [hbase]; rfl⟩

/-- What `release` does: the entries `gone` pass and get their verdicts, and the first of
the entries `kept` does not pass. -/
structure Releases (h h' : CapturedPacketHandler) (gone kept : List IpPkt) : Prop where
  passed : h.passAll h.prevReleasedId gone = true
  stopped : ∀ p rest, kept = p :: rest →
    h.passes (rememberedAfter h.prevReleasedId gone) p = false
  settled : h'.settled = h.settled ++ gone.map fun p => ⟨p, p.erase⟩
  captureLog : h'.pktCptr.captureLog = h.pktCptr.captureLog
  capturedPackets : h'.pktCptr.capturedPackets = h.pktCptr.capturedPackets

private theorem releaseLoop_releases (ps : List IpPkt) :
    ∀ (h : CapturedPacketHandler) (r : ReleaseTotals), ∃ gone,
      ps = gone ++ (releaseLoop ps h r).2.1 ∧
      Releases h (releaseLoop ps h r).1 gone (releaseLoop ps h r).2.1 := by
  induction ps with
  | nil => intro h r; exact ⟨[], rfl, rfl, by rintro p rest ⟨⟩, by simp [releaseLoop], rfl, rfl⟩
  | cons p ps ih =>
      intro h r
      simp only [releaseLoop]
      have hsome := releaseOne_isSome h p r
      cases hone : h.releaseOne p r with
      | none =>
          rw [hone] at hsome
          refine ⟨[], rfl, rfl, ?_, by simp, rfl, rfl⟩
          intro q rest hq
          rw [List.cons.injEq] at hq
          rw [← hq.1]
          exact hsome.symm
      | some res =>
          obtain ⟨h', r'⟩ := res
          rw [hone] at hsome
          obtain ⟨gone, hps, hrel⟩ := ih h' r'
          obtain ⟨hdo, ht⟩ := releaseOne_next hone
          obtain ⟨-, hset, -, hlast⟩ := releaseOne_answer hone
          obtain ⟨v, -, hcap, -⟩ := releaseOne_verdict hone
          refine ⟨p :: gone, by rw [List.cons_append, ← hps], ?_, ?_, ?_, ?_, ?_⟩
          · rw [passAll, ← hsome, ← passAll_congr hdo ht, ← hlast, hrel.passed]; rfl
          · intro q rest hq
            have hstop := hrel.stopped q rest hq
            rw [hlast] at hstop
            rw [rememberedAfter_cons, ← hstop]
            simp only [passes, checkOrder, hdo, ht]
          · rw [hrel.settled, hset, List.map_cons, List.append_assoc]; rfl
          · rw [hrel.captureLog, hcap, PktCapture.verdict_captureLog]
          · rw [hrel.capturedPackets, hcap, PktCapture.verdict_capturedPackets]

/-- **`release` lets go the longest part of `out_pkts` that passes.** -/
theorem release_releases (h : CapturedPacketHandler) : ∃ gone,
    h.outPkts = gone ++ h.release.1.outPkts ∧ Releases h h.release.1 gone h.release.1.outPkts := by
  obtain ⟨gone, hps, hrel⟩ := releaseLoop_releases h.outPkts h {}
  exact ⟨gone, hps, hrel.passed, hrel.stopped, hrel.settled, hrel.captureLog, hrel.capturedPackets⟩

theorem Releases.done {h h' : CapturedPacketHandler} {gone kept : List IpPkt}
    (hrel : Releases h h' gone kept) : h'.done = h.done ++ gone := by
  rw [PacketHandlerBase.done, hrel.settled, List.map_append, List.map_map, PacketHandlerBase.done]
  simp [Function.comp_def]

/-- The list is emptied exactly when all of it passes. -/
theorem release_empties (h : CapturedPacketHandler) :
    h.release.1.outPkts = [] ↔ h.passAll h.prevReleasedId h.outPkts = true := by
  obtain ⟨gone, hps, hrel⟩ := release_releases h
  constructor
  · intro hempty
    rw [hempty, List.append_nil] at hps
    rw [hps]
    exact hrel.passed
  · intro hall
    cases hkept : h.release.1.outPkts with
    | nil => rfl
    | cons p rest =>
        rw [hps, hkept, passAll_append, passAll] at hall
        simp [hrel.stopped p rest hkept] at hall

end CapturedPacketHandler

namespace PdcpLayer

open CapturedPacketHandler

/-! ### Acceptance in capture order -/

/-- The ids of the packets accepted so far, with or without CE. -/
def acceptedIds (s : PdcpLayer CapturedPacketHandler) : List UInt32 :=
  (s.packetH.pktCptr.verdicts.filter fun v => v.2 ≠ .drop).map Prod.fst

/-- Packet `u` was captured before packet `v`. -/
def CapturedBefore (s : PdcpLayer CapturedPacketHandler) (u v : UInt32) : Prop :=
  s.capturedIds.idxOf u < s.capturedIds.idxOf v

/-- The entries that `release` is about to let go without comparing ids keep to the
order nevertheless: one that is dropped was captured before no packet accepted by then,
and one that passes because the id remembered is negative, though entries were let go
before it, does name the entry before it. -/
def InTurn (s : PdcpLayer CapturedPacketHandler) : Prop :=
  ∀ pre p post, s.packetH.outPkts = pre ++ p :: post →
    s.packetH.passAll s.packetH.prevReleasedId (pre ++ [p]) = true →
    (p.erase = true → ∀ u ∈ s.acceptedIds ++ (pre.filter fun q => !q.erase).map IpPkt.uid,
      ¬s.CapturedBefore p.uid u) ∧
    (p.erase = false → (s.verdictIds ≠ [] ∨ pre ≠ []) →
      ¬(-1 < rememberedAfter s.packetH.prevReleasedId pre ∧ s.packetH.doCheck = true) →
        p.prevUid.toInt32 = rememberedAfter s.packetH.prevReleasedId pre ∧
          s.capturedIds.head? ≠ some p.uid)

theorem acceptedIds_eq {s : PdcpLayer CapturedPacketHandler} (hc : s.packetH.Chronicle) :
    s.acceptedIds = (s.packetH.done.filter fun p => !p.erase).map IpPkt.uid := by
  have haction : ∀ p : IpPkt, (decide (p.action ≠ .drop)) = !p.erase := by
    intro p
    unfold IpPkt.action
    cases p.erase <;> cases p.ceMarked <;> rfl
  rw [acceptedIds, hc.answers, PacketHandlerBase.done, List.filter_map, List.map_map,
    List.filter_map, List.map_map]
  congr 1
  refine List.filter_congr fun e _ => ?_
  exact haction e.pkt

/-- Where an entry's packet stands among the captured ones. -/
private def place (s : PdcpLayer CapturedPacketHandler) (p : IpPkt) : ℕ :=
  s.capturedIds.idxOf p.uid

/-- Two captured packets that stand at one place have one id. -/
private theorem uid_of_place {s : PdcpLayer CapturedPacketHandler} {p q : IpPkt}
    (hp : p.uid ∈ s.capturedIds) (h : place s p = place s q) : p.uid = q.uid :=
  (List.idxOf_inj hp).mp h

/-- Only the first packet captured names no captured packet. -/
private theorem prevUid_of_head {s : PdcpLayer CapturedPacketHandler} (hc : s.packetH.Chronicle)
    (hids : s.capturedIds.Nodup) {p : IpPkt} (hp : p.StemsFrom s.packetH.ingested)
    (hhead : s.capturedIds.head? = some p.uid) : p.prevUid = firstPrevUid := by
  obtain ⟨a, info, b, hlog, hu, hprev, -⟩ := hc.captured hp
  cases a with
  | nil => exact hprev
  | cons x a =>
      rw [capturedIds, hlog, List.cons_append, List.map_cons, List.nodup_cons] at hids
      rw [capturedIds, hlog, List.cons_append, List.map_cons, List.head?_cons, hu] at hhead
      refine absurd ?_ hids.1
      rw [Option.some.inj hhead]
      simp

/-- A packet stands right behind the one it names as its predecessor. -/
private theorem place_follow {s : PdcpLayer CapturedPacketHandler} (hc : s.packetH.Chronicle)
    (hids : s.capturedIds.Nodup) {p q : IpPkt} (hp : p.StemsFrom s.packetH.ingested)
    (hfirst : s.capturedIds.head? ≠ some p.uid) (hq : q.uid = p.prevUid) :
    place s p = place s q + 1 := by
  obtain ⟨a, info, b, hlog, hu, hprev, -⟩ := hc.captured hp
  rcases List.eq_nil_or_concat a with rfl | ⟨a', x, rfl⟩
  · refine absurd ?_ hfirst
    rw [capturedIds, hlog, hu]
    rfl
  · have hx : q.uid = x.pktId := by rw [hq, hprev]; simp [lastId]
    have hsplit : s.capturedIds
        = a'.map CapturedPacketInfo.pktId ++ x.pktId :: info.pktId
            :: b.map CapturedPacketInfo.pktId := by
      rw [capturedIds, hlog]; simp
    rw [hsplit] at hids
    have hxa : x.pktId ∉ a'.map CapturedPacketInfo.pktId := by
      intro hmem
      exact (List.nodup_append.mp hids).2.2 _ hmem _ (List.mem_cons_self ..) rfl
    have hia : info.pktId ∉ a'.map CapturedPacketInfo.pktId := by
      intro hmem
      exact (List.nodup_append.mp hids).2.2 _ hmem _ (by simp) rfl
    have hne : x.pktId ≠ info.pktId := by
      have htail := (List.nodup_append.mp hids).2.1
      rw [List.nodup_cons, List.mem_cons, not_or] at htail
      exact htail.1.1
    rw [place, place, hu, hx, hsplit, List.idxOf_append_of_notMem hia,
      List.idxOf_append_of_notMem hxa, List.idxOf_cons_ne _ hne, List.idxOf_cons_self,
      List.idxOf_cons_self]

/-- The id remembered is that of the last entry. -/
private theorem remembered_last {prev : Int32} {l : List IpPkt} {y : IpPkt}
    (hy : l.getLast? = some y) : rememberedAfter prev l = y.uid.toInt32 := by
  obtain ⟨l, rfl⟩ := List.getLast?_eq_some_iff.mp hy
  rw [rememberedAfter_append]
  rfl

private theorem toInt32_inj {u v : UInt32} (h : u.toInt32 = v.toInt32) : u = v :=
  congrArg Int32.toUInt32 h

/-- An entry that is not dropped passes behind the one it names, unless it is first. -/
private theorem named_of_passes {s : PdcpLayer CapturedPacketHandler} (hc : s.packetH.Chronicle)
    (hids : s.capturedIds.Nodup) {p : IpPkt} (hp : p.StemsFrom s.packetH.ingested)
    {prev : Int32} (hpass : s.packetH.passes prev p = true) (herase : p.erase = false)
    (hskip : ¬(-1 < prev ∧ s.packetH.doCheck = true) →
      p.prevUid.toInt32 = prev ∧ s.capturedIds.head? ≠ some p.uid) :
    p.prevUid.toInt32 = prev ∧ s.capturedIds.head? ≠ some p.uid := by
  by_cases hcheck : -1 < prev ∧ s.packetH.doCheck = true
  · have htests : p.isReady = true ∧ prev = p.prevUid.toInt32 ∧ p.tOut ≤ s.packetH.currentT := by
      simpa [passes, herase, checkOrder, hcheck.1, hcheck.2] using hpass
    have hname := htests.2.1
    refine ⟨hname.symm, fun hhead => ?_⟩
    rw [hname, prevUid_of_head hc hids hp hhead] at hcheck
    exact absurd hcheck.1 (by decide)
  · exact hskip hcheck

/-- A dropped entry is compared with nothing, so it may go when nothing accepted was captured
after it. -/
private theorem inOrder_dropped {s : PdcpLayer CapturedPacketHandler}
    (hinv : CapturedInv (s.custody none)) (hids : s.capturedIds.Nodup) {l : List IpPkt} {p : IpPkt}
    (hbefore : InOrder (place s) (fun p => p.erase = false) l)
    (hmem : ∀ v ∈ l, v ∈ (s.custody none).all) (hnd : ((l ++ [p]).map IpPkt.uid).Nodup)
    (hlate : ∀ v ∈ l, v.erase = false → ¬s.CapturedBefore p.uid v.uid) :
    InOrder (place s) (fun p => p.erase = false) (l ++ [p]) := by
  refine hbefore.jump fun v hv hacc => ?_
  have hne : place s v ≠ place s p := by
    intro heq
    have hu := uid_of_place (uid_captured hinv hids v (hmem v hv)) heq
    rw [List.map_append, List.nodup_append] at hnd
    exact hnd.2.2 v.uid (List.mem_map_of_mem hv) p.uid (by simp) hu
  have hle : place s v ≤ place s p := not_lt.mp (hlate v hv hacc)
  omega

/-- The entries let go so far stand in capture order, as far as they are accepted. -/
private theorem inOrder_gone {s : PdcpLayer CapturedPacketHandler}
    (hinv : CapturedInv (s.custody none)) (hids : s.capturedIds.Nodup) (hturn : s.InTurn)
    (hold : InOrder (place s) (fun p => p.erase = false) s.packetH.done) (pre : List IpPkt) :
    ∀ post, s.packetH.outPkts = pre ++ post →
      s.packetH.passAll s.packetH.prevReleasedId pre = true →
      ((s.packetH.done ++ pre).map IpPkt.uid).Nodup →
      InOrder (place s) (fun p => p.erase = false) (s.packetH.done ++ pre) := by
  induction pre using List.reverseRecOn with
  | nil => intro post _ _ _; rw [List.append_nil]; exact hold
  | append_singleton pre p ih =>
      intro post hout hpass hnd
      have hout' : s.packetH.outPkts = pre ++ p :: post := by rw [hout]; simp
      obtain ⟨hdrop, hskip⟩ := hturn pre p post hout' hpass
      rw [passAll_append, Bool.and_eq_true, passAll, Bool.and_eq_true] at hpass
      have hlast : rememberedAfter s.packetH.prevReleasedId pre
          = rememberedAfter (-1) (s.packetH.done ++ pre) := by
        rw [rememberedAfter_append]
        exact congrArg (rememberedAfter · pre) hinv.chronicle.last
      rw [← List.append_assoc] at hnd ⊢
      have hpre : ((s.packetH.done ++ pre).map IpPkt.uid).Nodup := by
        rw [List.map_append] at hnd
        exact hnd.of_append_left
      have hbefore := ih (p :: post) hout' hpass.1 hpre
      have hmem : ∀ v ∈ s.packetH.done ++ (pre ++ [p]), v ∈ (s.custody none).all := by
        intro v hv
        refine List.mem_append_right _ (List.mem_append.mpr ?_)
        rcases List.mem_append.mp hv with hv | hv
        · exact Or.inr hv
        · refine Or.inl ?_
          show v ∈ s.packetH.outPkts
          rw [hout]
          exact List.mem_append_left _ hv
      by_cases herase : p.erase = true
      · refine inOrder_dropped hinv hids hbefore (fun v hv => hmem v ?_) hnd fun v hv hacc => ?_
        · rw [← List.append_assoc]
          exact List.mem_append_left _ hv
        · refine hdrop herase v.uid ?_
          rw [acceptedIds_eq hinv.chronicle, ← List.map_append, ← List.filter_append]
          exact List.mem_map_of_mem (List.mem_filter.mpr ⟨hv, by simpa using hacc⟩)
      · have hkeep : p.erase = false := by simpa using herase
        cases hy : (s.packetH.done ++ pre).getLast? with
        | none =>
            rw [List.getLast?_eq_none_iff] at hy
            rw [hy]
            exact InOrder.nil.jump fun v hv => absurd hv (List.not_mem_nil)
        | some y =>
            -- an accepted entry: it follows the one it names
            have hsome : s.verdictIds ≠ [] ∨ pre ≠ [] := by
              rw [verdictIds_eq hinv.chronicle]
              by_contra hnone
              rw [not_or, not_not, not_not, List.map_eq_nil_iff] at hnone
              rw [hnone.1, hnone.2] at hy
              cases hy
            have hstems := stems_of_distinct hinv hids p (hmem p (by simp))
            obtain ⟨hname, hfirst⟩ := named_of_passes hinv.chronicle hids hstems hpass.2.1 hkeep
              (hskip hkeep hsome)
            rw [hlast, remembered_last hy] at hname
            exact hbefore.follow hy
              (place_follow hinv.chronicle hids hstems hfirst (toInt32_inj hname).symm)

/-! ### The invariant over runs -/

/-- What captured runs keep when `release` is always in turn. -/
private structure OrderInv (s : PdcpLayer CapturedPacketHandler) : Prop where
  captured : CapturedInv (s.custody none)
  order : s.capturedIds.Nodup →
    InOrder (place s) (fun p => p.erase = false) s.packetH.done

/-- The past of the handler only grows by `release` and by captures. -/
private theorem inside_past {s s' : PdcpLayer CapturedPacketHandler}
    (hm : Moves (s.custody none) (s'.custody none)) :
    s'.packetH.settled = s.packetH.settled ∧ s.capturedIds <+: s'.capturedIds := by
  have hpast := moves_inv (I := fun c : Custody CapturedPacketHandler =>
    c.packetH.settled = s.packetH.settled ∧
      s.packetH.pktCptr.captureLog <+: c.packetH.pktCptr.captureLog)
    (fun {c c'} hm hc => ⟨hm.inside_past.1.trans hc.1, hc.2.trans hm.inside_past.2⟩) hm
    ⟨rfl, List.prefix_rfl⟩
  exact ⟨hpast.1, hpast.2.map _⟩

private theorem OrderInv.inside {s s' : PdcpLayer CapturedPacketHandler}
    (hm : Moves (s.custody none) (s'.custody none)) (h : OrderInv s) : OrderInv s' := by
  refine ⟨moves_inv CapturedInv.move hm h.captured, fun hids => ?_⟩
  obtain ⟨hsettled, hgrow⟩ := inside_past hm
  have hold : s.capturedIds.Nodup := hids.sublist hgrow.sublist
  have hdone : s'.packetH.done = s.packetH.done := by
    rw [PacketHandlerBase.done, hsettled, PacketHandlerBase.done]
  rw [hdone]
  refine (h.order hold).congr fun v hv => ?_
  have hv : v.uid ∈ s.capturedIds := uid_captured h.captured hold v
    (List.mem_append_right _ (List.mem_append_right _ hv))
  exact (hgrow.idxOf_eq_of_mem hv).symm

private theorem OrderInv.release {s : PdcpLayer CapturedPacketHandler} (hturn : s.InTurn)
    (h : OrderInv s) : OrderInv s.release.1 := by
  have hcap : CapturedInv (s.release.1.custody none) := h.captured.move (Move.release _)
  refine ⟨hcap, fun hids => ?_⟩
  obtain ⟨gone, hout, hrel⟩ := release_releases s.packetH
  have hsame : s.release.1.capturedIds = s.capturedIds := by
    rw [capturedIds, capturedIds]
    exact congrArg (List.map CapturedPacketInfo.pktId) hrel.captureLog
  have hdone : s.release.1.packetH.done = s.packetH.done ++ gone := hrel.done
  have hnd := (done_nodup hcap hids).1
  rw [hdone] at hnd ⊢
  rw [hsame] at hids
  refine (inOrder_gone h.captured hids hturn (h.order hids) gone _ hout hrel.passed hnd).congr
    fun v _ => ?_
  rw [place, place, hsame]

/-- **Packets are accepted in capture order.**  Along every run, with either backend, in
which the ids captured are pairwise distinct and every `release` keeps in turn what it
does not compare, no packet is accepted after one that was captured later. -/
theorem captured_in_order (cfg : PacketHandlerConfig) (verbosity : ℤ) (seeds : Seeds)
    (budgetS : ℚ) (fuel : ℕ) (es : List (Event NfqPacketMetadata Draws))
    (s : PdcpLayer CapturedPacketHandler)
    (hrun : (captured cfg verbosity seeds budgetS).exec fuel es = some s)
    (hturn : Runs.Along (apply fuel) (fun s e => e = .release → s.InTurn)
      (captured cfg verbosity seeds budgetS) es)
    (hids : s.capturedIds.Nodup) :
    s.acceptedIds.Pairwise s.CapturedBefore := by
  have hinit : OrderInv (captured cfg verbosity seeds budgetS) :=
    ⟨captured_capturedInv cfg verbosity seeds budgetS, fun _ => InOrder.nil⟩
  have hinv : OrderInv s := by
    refine Runs.runAll_inv (fun s e s' hs hturn he => ?_) hinit hturn hrun
    rcases apply_moves he with ⟨rfl, rfl⟩ | hmoves
    · exact hs.release (hturn rfl)
    · exact hs.inside hmoves
  rw [acceptedIds_eq hinv.captured.chronicle, List.pairwise_map, List.pairwise_filter]
  refine (hinv.order hids).pairwise.imp fun hvw hv hw => ?_
  exact hvw (by simpa using hv) (by simpa using hw)

/-- The first of two packets expires; its drop goes first, then the other is accepted. -/
theorem captured_in_order_drop :
    ∃ s : PdcpLayer CapturedPacketHandler,
      (captured { l4sC := { enabled := true } } 0 { unitDist := fun _ => 1 / 2 } (1 / 100)).exec 5
        ([.env ⟨1000, 1, .notEct, []⟩, .step (1 / 10000) fun _ => 1 / 10000,
          .env ⟨1000, 2, .notEct, []⟩, .step (5 / 10000) fun _ => 5 / 10000,
          .step (103 / 10000) fun _ => 103 / 10000, .handlePkt 8000 5 0 0] ++ [.release]) = some s ∧
      s.verdictIds = [1, 2] ∧ s.acceptedIds = [2] ∧ s.acceptedIds.Pairwise s.CapturedBefore := by
  refine Runs.exists_of_view (fun s => (s.verdictIds, s.acceptedIds, s.capturedIds))
    (x := ([1, 2], [2], [1, 2])) (by decide +kernel) fun s hs hview => ?_
  simp only [Prod.mk.injEq] at hview
  refine ⟨hview.1, hview.2.1, captured_in_order _ _ _ _ _ _ s hs ?_ (by rw [hview.2.2]; decide)⟩
  refine Runs.along_concat (Runs.along_of_forall fun s => by simp) fun s hs _ => ?_
  have hstate := Runs.view_eq (fun s => (s.packetH.outPkts.map fun p => (p.erase, p.uid.toInt32),
    s.packetH.doCheck, s.acceptedIds, s.verdictIds)) (x := ([(true, 1), (false, 2)], true, [], []))
    (by decide +kernel) hs
  simp only [Prod.mk.injEq] at hstate
  obtain ⟨hlist, hcheck, hacc, hverd⟩ := hstate
  intro pre p post hout _
  rw [hout, List.map_append, List.map_cons] at hlist
  rcases pre with _ | ⟨q, _ | ⟨r, pre⟩⟩
  · -- the drop overtakes nothing, since nothing is accepted yet
    have herase : p.erase = true := by
      rw [List.map_nil, List.nil_append, List.cons.injEq] at hlist
      exact congrArg Prod.fst hlist.1
    refine ⟨fun _ => by simp [hacc], fun hkeep => ?_⟩
    rw [herase] at hkeep
    cases hkeep
  · -- the other packet is compared
    simp only [List.map_cons, List.map_nil, List.cons_append, List.nil_append, List.cons.injEq,
      Prod.mk.injEq] at hlist
    refine ⟨fun hdrop => ?_, fun _ _ hskip => absurd ⟨?_, hcheck⟩ hskip⟩
    · rw [hlist.2.1.1] at hdrop
      cases hdrop
    · rw [rememberedAfter_cons, rememberedAfter_nil, hlist.1.2]
      decide
  · have hlen := congrArg List.length hlist
    simp at hlen

/-- A packet overtakes two others in the L4S queue and goes first; then the older of the
two is dropped, and the id of the drop lets the other one pass. -/
theorem captured_out_of_order :
    ∃ s : PdcpLayer CapturedPacketHandler,
      (captured { l4sC := { enabled := true } } 0 { unitDist := fun _ => 1 / 2 } (1 / 100)).exec 5
        [.env ⟨1000, 1, .notEct, []⟩, .step (1 / 10000) fun _ => 1 / 10000,
          .env ⟨1000, 2, .notEct, []⟩, .env ⟨1000, 3, .ect1, []⟩,
          .step (5 / 10000) fun _ => 5 / 10000, .handlePkt 8000 5 0 0, .release,
          .step (103 / 10000) fun _ => 103 / 10000, .handlePkt 8000 5 0 0, .release] = some s ∧
      s.capturedIds = [1, 2, 3] ∧ s.acceptedIds = [3, 2] ∧
      ¬s.acceptedIds.Pairwise s.CapturedBefore := by
  refine Runs.exists_of_view (fun s => (s.capturedIds, s.acceptedIds))
    (x := ([1, 2, 3], [3, 2])) (by decide +kernel) fun s hs hview => ?_
  simp only [Prod.mk.injEq] at hview
  refine ⟨hview.1, hview.2, fun hpair => ?_⟩
  rw [hview.2, List.pairwise_cons] at hpair
  have hlt := hpair.1 2 (by simp)
  rw [CapturedBefore, hview.1] at hlt
  revert hlt
  decide

end PdcpLayer

end NetworkEmulator
