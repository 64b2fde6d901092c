/-
The final verdict of a packet that arrives in fragments.

Both handlers are fed the same arrivals: each fragment is delivered, which is a push
and a release, or dropped.  The simulated handler folds what every fragment says into
a pending record, so its verdict is the rule.  The captured handler merges each
fragment into the entry of the first one, which keeps the CE mark of the first and
forgets that of the others.  So the two agree exactly when nothing is lost by that.
-/
import NetworkEmulator.Proofs.Keeping

namespace NetworkEmulator

/-- One fragment reaching a handler at time `t`, alone in its block. -/
structure Arrival where
  t : ℚ
  block : HarqPkt
  pkt : IpPkt
  dropped : Bool

/-- The block that carries the fragment. -/
def Arrival.carrier (a : Arrival) : HarqPkt := { a.block with pkts := [a.pkt] }

namespace PacketHandler

variable {H Env In : Type} [PacketHandler H Env In]

/-- The clock moves on, and the fragment is dropped, or pushed and released. -/
def arrive (h : H) (a : Arrival) : H :=
  if a.dropped then drop (step h a.t) a.carrier
  else (release (push (step h a.t) a.carrier)).1

/-- All arrivals, and a `release` in the end. -/
def feed (h : H) (as : List Arrival) : H := (release (as.foldl arrive h)).1

theorem feed_cons (h : H) (a : Arrival) (as : List Arrival) :
    feed h (a :: as) = feed (arrive h a) as := rfl

end PacketHandler

open PacketHandler (arrive feed feed_cons)

/-- A fragment of packet `p` of a positive number of bits. -/
structure Arrival.FragmentOf (p : IpPkt) (a : Arrival) : Prop where
  uid : a.pkt.uid = p.uid
  prevUid : a.pkt.prevUid = p.prevUid
  originalSize : a.pkt.originalSize = p.originalSize
  kept : a.pkt.erase = false
  bits : ∃ n : ℕ, 0 < n ∧ a.pkt.size = n

/-- The bits that arrive. -/
abbrev arrivedBits (as : List Arrival) : ℚ := weight (fun a => a.pkt.size) as

/-- The arrivals are the fragments of packet `p`, in the order of their times. -/
structure Splits (p : IpPkt) (as : List Arrival) : Prop where
  nonempty : as ≠ []
  fragments : ∀ a ∈ as, a.FragmentOf p
  total : arrivedBits as = p.originalSize
  times : as.Pairwise fun a b => a.t ≤ b.t

/-- Each fragment that is delivered is due then, its backhaul delay being drawn from
`d`. -/
def OnTime : Draws → List Arrival → Prop
  | _, [] => True
  | d, a :: as =>
    if a.dropped then OnTime d as
    else a.block.tOut + (a.block.backhaulD + d 0 * a.block.backhaulDVar) ≤ a.t ∧ OnTime d.tail as

/-- The rule for the final verdict. -/
def ruleVerdict (as : List Arrival) : FinalPacketVerdict :=
  if as.any Arrival.dropped then .drop
  else if as.any fun a => a.pkt.ceMarked then .acceptCe else .accept

/-- What is left to arrive is at least one bit. -/
private theorem one_le_arrivedBits {p : IpPkt} {as : List Arrival} (hne : as ≠ [])
    (hfrag : ∀ a ∈ as, a.FragmentOf p) : 1 ≤ arrivedBits as := by
  cases as with
  | nil => exact absurd rfl hne
  | cons a as =>
      obtain ⟨n, hn, hsize⟩ := (hfrag a (List.mem_cons_self ..)).bits
      have hone : (1 : ℚ) ≤ n := by exact_mod_cast hn
      have hrest : (0 : ℚ) ≤ arrivedBits as := by
        refine weight_nonneg fun b hb => ?_
        obtain ⟨m, -, hm⟩ := (hfrag b (List.mem_cons_of_mem _ hb)).bits
        rw [hm]
        exact Nat.cast_nonneg m
      rw [arrivedBits, weight_cons, hsize]
      linarith

private theorem onTime_cons {d : Draws} {a : Arrival} {as : List Arrival}
    (h : OnTime d (a :: as)) : (a.dropped = false →
      a.block.tOut + (a.block.backhaulD + d 0 * a.block.backhaulDVar) ≤ a.t) ∧
    OnTime (if a.dropped then d else d.tail) as := by
  rw [OnTime] at h
  by_cases hd : a.dropped = true
  · rw [if_pos hd] at h ⊢
    exact ⟨fun hfalse => by simp [hd] at hfalse, h⟩
  · rw [if_neg hd] at h ⊢
    exact ⟨fun _ => h.1, h.2⟩

/-! ### The simulated handler -/

namespace SimulatedPacketHandler

/-- The record of packet `p` after the arrivals `as`. -/
def tally (p : IpPkt) (st : PendingPacketResult) (as : List Arrival) : PendingPacketResult where
  originalSize := p.originalSize
  accountedBits := st.accountedBits + arrivedBits as
  dropped := st.dropped || as.any Arrival.dropped
  congestionSignal := st.congestionSignal || as.any fun a => a.pkt.ceMarked

/-- The handler holds the record `st` of packet `p`, or none yet, and no block. -/
structure Awaits (h : SimulatedPacketHandler) (p : IpPkt) (st : PendingPacketResult) : Prop where
  record : (h.pendingResults p.uid).getD {} = st
  size : st.originalSize ≤ 0 ∨ st.originalSize = p.originalSize
  blocks : h.pktList = []

/-- What the record becomes with one fragment more, delivered or dropped. -/
private theorem update_tally {h : SimulatedPacketHandler} {p : IpPkt} {st : PendingPacketResult}
    {a : Arrival} (hfrag : a.FragmentOf p) (hrecord : (h.pendingResults p.uid).getD {} = st)
    (hsize : st.originalSize ≤ 0 ∨ st.originalSize = p.originalSize) :
    h.pendingAfter a.pkt a.dropped = tally p st [a] := by
  simp only [pendingAfter, tally, hfrag.uid, hrecord, hfrag.originalSize, weight_cons, weight_nil,
    add_zero, List.any_cons, List.any_nil, Bool.or_false, PendingPacketResult.mk.injEq, and_true]
  rcases hsize with hsize | hsize
  · exact if_pos hsize
  · rw [hsize]
    exact ite_self _

private theorem updatePendingPacket_gaussDist (h : SimulatedPacketHandler) (q : IpPkt) (d : Bool) :
    (h.updatePendingPacket q d).gaussDist = h.gaussDist := by
  simp only [updatePendingPacket]
  split <;> rfl

private theorem updatePendingPacket_complete {h : SimulatedPacketHandler} {q : IpPkt} {d : Bool}
    (hc : (h.pendingAfter q d).complete = true) :
    (h.updatePendingPacket q d).verdictLog
      = h.verdictLog ++ [(q.uid, (h.pendingAfter q d).finalVerdict)] := by
  simp only [updatePendingPacket]
  rw [if_pos hc]
  rfl

private theorem updatePendingPacket_incomplete {h : SimulatedPacketHandler} {q : IpPkt} {d : Bool}
    (hc : (h.pendingAfter q d).complete = false) :
    (h.updatePendingPacket q d).verdictLog = h.verdictLog ∧
      (h.updatePendingPacket q d).pendingResults q.uid = some (h.pendingAfter q d) := by
  simp only [updatePendingPacket]
  rw [if_neg (by simp [hc])]
  exact ⟨rfl, Function.update_self ..⟩

/-- What the theorem follows of a handler. -/
private def view (h : SimulatedPacketHandler) :=
  (h.pendingResults, h.pktList, h.verdictLog, h.gaussDist)

/-- Delivering a block that is due is one update for its only fragment. -/
private theorem release_single {h : SimulatedPacketHandler} {b : HarqPkt} {q : IpPkt}
    (hlist : h.pktList = [b]) (hb : b.pkts = [q]) (hdue : b.tOut ≤ h.currentT) :
    view h.release.1 = view { h.updatePendingPacket q false with pktList := [] } := by
  simp only [release, releaseLoop, hlist, if_pos hdue, hb, updateAll, List.foldl_cons,
    List.foldl_nil, view]
  rfl

/-- The update reads and writes nothing else. -/
private theorem update_view (h h' : SimulatedPacketHandler) (q : IpPkt) (d : Bool)
    (hp : h'.pendingResults = h.pendingResults) (hv : h'.verdictLog = h.verdictLog) :
    (h'.updatePendingPacket q d).pendingResults = (h.updatePendingPacket q d).pendingResults ∧
      (h'.updatePendingPacket q d).verdictLog = (h.updatePendingPacket q d).verdictLog := by
  have hafter : h'.pendingAfter q d = h.pendingAfter q d := by simp only [pendingAfter, hp]
  simp only [updatePendingPacket, hafter]
  split <;> simp [PacketHandlerBase.verdict, PacketHandlerBase.settle, hp, hv]

/-- An arrival is one update of the record. -/
private theorem arrive_view {h : SimulatedPacketHandler} {a : Arrival} (hlist : h.pktList = [])
    (hdue : a.dropped = false →
      a.block.tOut + (a.block.backhaulD + h.gaussDist 0 * a.block.backhaulDVar) ≤ a.t) :
    view (arrive h a) = view { h.updatePendingPacket a.pkt a.dropped with
      pktList := [], gaussDist := if a.dropped then h.gaussDist else h.gaussDist.tail } := by
  unfold arrive
  by_cases hd : a.dropped = true
  · rw [if_pos hd, hd]
    obtain ⟨hp, hv⟩ := update_view h (PacketHandler.step h a.t) a.pkt true rfl rfl
    show view ((PacketHandler.step h a.t).updatePendingPacket a.pkt true) = _
    simp only [view, hp, hv, updatePendingPacket_pktList, updatePendingPacket_gaussDist, if_true]
    rw [show (PacketHandler.step h a.t).pktList = [] from hlist]
    rfl
  · rw [if_neg hd, show a.dropped = false by simpa using hd]
    have hrel := release_single
      (h := PacketHandler.push (PacketHandler.step h a.t) a.carrier) (q := a.pkt)
      (b := { a.carrier with tOut := a.block.tOut +
        (a.block.backhaulD + h.gaussDist 0 * a.block.backhaulDVar) })
      (by
        show h.pktList ++ [_] = _
        rw [hlist]
        rfl)
      rfl (hdue (by simpa using hd))
    obtain ⟨hp, hv⟩ := update_view h (PacketHandler.push (PacketHandler.step h a.t) a.carrier)
      a.pkt false rfl rfl
    refine Eq.trans hrel ?_
    simp only [view, hp, hv, updatePendingPacket_gaussDist]
    rfl

private theorem tally_complete {p : IpPkt} {st : PendingPacketResult} {as : List Arrival}
    (hpos : 0 < p.originalSize) (htotal : st.accountedBits + arrivedBits as = p.originalSize) :
    (tally p st as).complete = true := by
  simp only [PendingPacketResult.complete, tally, htotal, Bool.and_eq_true, decide_eq_true_eq]
  refine ⟨hpos, ?_⟩
  norm_num [bitRoundMargin]

private theorem tally_incomplete {p : IpPkt} {st : PendingPacketResult} {as : List Arrival}
    {more : ℚ} (hmore : 1 ≤ more)
    (htotal : st.accountedBits + arrivedBits as + more = p.originalSize) :
    (tally p st as).complete = false := by
  refine Bool.and_eq_false_iff.mpr (Or.inr (decide_eq_false ?_))
  simp only [tally, bitRoundMargin]
  linarith

private theorem tally_cons (p : IpPkt) (st : PendingPacketResult) (a : Arrival)
    (as : List Arrival) : tally p (tally p st [a]) as = tally p st (a :: as) := by
  simp [tally, Bool.or_assoc, add_assoc]

/-- From any record on, the rest of the packet makes the verdict of the whole record. -/
private theorem feed_tally {p : IpPkt} (hpos : 0 < p.originalSize) (as : List Arrival) :
    ∀ {h : SimulatedPacketHandler} {st : PendingPacketResult}, Awaits h p st → as ≠ [] →
      (∀ a ∈ as, a.FragmentOf p) → st.accountedBits + arrivedBits as = p.originalSize →
      OnTime h.gaussDist as →
      (feed h as).verdictLog = h.verdictLog ++ [(p.uid, (tally p st as).finalVerdict)] := by
  induction as with
  | nil => intro h st _ hne; exact absurd rfl hne
  | cons a as ih =>
      intro h st haw _ hfrag htotal htime
      have ha := hfrag a (List.mem_cons_self ..)
      obtain ⟨hdue, htime⟩ := onTime_cons htime
      have hview := arrive_view haw.blocks hdue
      simp only [view, Prod.mk.injEq] at hview
      obtain ⟨hres, hlist, hlog, hdraw⟩ := hview
      have hafter := update_tally ha haw.record haw.size
      rw [arrivedBits, weight_cons] at htotal
      rw [feed_cons]
      by_cases hne : as = []
      · -- the last fragment completes the record
        subst hne
        have hc : (h.pendingAfter a.pkt a.dropped).complete = true := by
          rw [hafter]
          exact tally_complete hpos (by simpa using htotal)
        have hempty : (feed (arrive h a) []).verdictLog = (arrive h a).verdictLog := by
          show (arrive h a).release.1.verdictLog = _
          simp only [release, hlist, releaseLoop]
          rfl
        rw [hempty, hlog, updatePendingPacket_complete hc, hafter, ha.uid]
      · have hc : (h.pendingAfter a.pkt a.dropped).complete = false := by
          rw [hafter]
          refine tally_incomplete (one_le_arrivedBits hne fun b hb =>
            hfrag b (List.mem_cons_of_mem _ hb)) ?_
          simpa [add_assoc] using htotal
        obtain ⟨hsame, hrec⟩ := updatePendingPacket_incomplete hc
        rw [ha.uid, hafter] at hrec
        have haw' : Awaits (arrive h a) p (tally p st [a]) := by
          refine ⟨?_, Or.inr rfl, hlist⟩
          rw [hres, hrec]
          rfl
        rw [ih haw' hne (fun b hb => hfrag b (List.mem_cons_of_mem _ hb))
          (by simpa [tally, add_assoc] using htotal) (by rw [hdraw]; exact htime),
          hlog, hsame, tally_cons]

/-- **The simulated handler gives the verdict of the rule.** -/
theorem feed_rule {p : IpPkt} {as : List Arrival} (hsplit : Splits p as)
    {h : SimulatedPacketHandler} (hnew : h.pendingResults p.uid = none) (hlist : h.pktList = [])
    (htime : OnTime h.gaussDist as) :
    (feed h as).verdictLog = h.verdictLog ++ [(p.uid, ruleVerdict as)] := by
  have hone := one_le_arrivedBits hsplit.nonempty hsplit.fragments
  have hpos : 0 < p.originalSize := by
    rw [← hsplit.total]
    linarith
  have haw : Awaits h p {} := ⟨by rw [hnew]; rfl, Or.inl le_rfl, hlist⟩
  rw [feed_tally hpos as haw hsplit.nonempty hsplit.fragments (by simpa using hsplit.total) htime]
  simp [PendingPacketResult.finalVerdict, tally, ruleVerdict]

end SimulatedPacketHandler

/-! ### The captured handler -/

namespace CapturedPacketHandler

/-- The entry `e` is all the handler has, and neither the order nor the clock holds it
back. -/
structure Holds (h : CapturedPacketHandler) (p e : IpPkt) : Prop where
  entry : h.outPkts = [e]
  uid : e.uid = p.uid
  prevUid : e.prevUid = p.prevUid
  originalSize : e.originalSize = p.originalSize
  due : e.erase = true ∨ e.tOut ≤ h.currentT
  order : h.checkOrder p.prevUid.toInt32 = true

/-- The verdict of entry `e` when the arrivals `as` follow: their CE marks are lost. -/
def entryVerdict (e : IpPkt) (as : List Arrival) : FinalPacketVerdict :=
  if e.erase || as.any Arrival.dropped then .drop
  else if e.ceMarked then .acceptCe else .accept

/-- `release` with nothing to let go. -/
private theorem release_empty {h : CapturedPacketHandler} (hempty : h.outPkts = []) :
    h.release.1.verdictLog = h.verdictLog := by
  simp only [release, hempty, releaseLoop]
  rfl

/-- `release` while the only entry is incomplete. -/
private theorem release_incomplete {h : CapturedPacketHandler} {e : IpPkt}
    (hout : h.outPkts = [e]) (hready : e.isReady = false) :
    h.release.1.outPkts = [e] ∧ h.release.1.verdictLog = h.verdictLog ∧
      h.release.1.currentT = h.currentT ∧ h.release.1.gaussDist = h.gaussDist ∧
      h.release.1.prevReleasedId = h.prevReleasedId ∧ h.release.1.doCheck = h.doCheck := by
  have hone : h.releaseOne e {} = none := by
    unfold releaseOne
    rw [if_neg (by simp [hready])]
  have hrel : h.release.1 = { h with
      toPacketHandlerBase := h.toPacketHandlerBase.recordRelease {}, outPkts := [e] } := by
    simp only [release, hout, releaseLoop, hone]
  rw [hrel]
  exact ⟨rfl, rfl, rfl, rfl, rfl, rfl⟩

/-- `release` when the only entry is complete. -/
private theorem release_complete {h : CapturedPacketHandler} {p e : IpPkt} (hh : Holds h p e)
    (hready : e.isReady = true) :
    h.release.1.outPkts = [] ∧
      h.release.1.verdictLog = h.verdictLog ++ [(p.uid, entryVerdict e [])] := by
  have hone : ∃ h' r', h.releaseOne e {} = some (h', r') ∧
      h'.verdictLog = h.verdictLog ++ [(p.uid, entryVerdict e [])] := by
    unfold releaseOne
    rw [if_pos hready, ← hh.uid]
    by_cases herase : e.erase = true
    · rw [if_pos herase]
      exact ⟨_, _, rfl, by simp [verdict, PacketHandlerBase.verdict, PacketHandlerBase.settle,
        updateOrder, entryVerdict, herase]⟩
    · rw [if_neg herase, hh.prevUid, if_pos hh.order, if_pos (hh.due.resolve_left herase)]
      by_cases hce : e.ceMarked = true
      · simp only [if_pos hce]
        exact ⟨_, _, rfl, by simp [verdict, PacketHandlerBase.verdict, PacketHandlerBase.settle,
          updateOrder, entryVerdict, herase, hce]⟩
      · simp only [if_neg hce]
        exact ⟨_, _, rfl, by simp [verdict, PacketHandlerBase.verdict, PacketHandlerBase.settle,
          updateOrder, entryVerdict, herase, hce]⟩
  obtain ⟨h', r', hone, hlog⟩ := hone
  have hrel : h.release.1 = { h' with
      toPacketHandlerBase := h'.toPacketHandlerBase.recordRelease r', outPkts := [] } := by
    simp only [release, hh.entry, releaseLoop, hone]
  rw [hrel]
  exact ⟨rfl, hlog⟩

/-- Whole numbers of bits that are short of a packet leave it incomplete. -/
private theorem not_ready {e : IpPkt} {more : ℚ} (hmore : 1 ≤ more)
    (htotal : e.size + more = e.originalSize) : e.isReady = false := by
  refine decide_eq_false ?_
  rw [show e.size - e.originalSize = -more by linarith, abs_neg, abs_of_nonneg (by linarith)]
  norm_num [bitRoundMargin]
  linarith

/-- The entry there is after one more fragment. -/
def merged (e : IpPkt) (a : Arrival) : IpPkt :=
  if a.dropped then { e with erase := true, size := e.size + a.pkt.size }
  else { e with
    size := e.size + a.pkt.size
    fragsRecovered := e.fragsRecovered + 1
    fragsCreated := a.pkt.fragsCreated }

/-- The entry the first fragment makes, its backhaul delay being `delay`. -/
def opened (delay : ℚ) (a : Arrival) : IpPkt :=
  if a.dropped then { a.pkt with tOut := a.block.tOut, ipT := a.block.ipT, erase := true }
  else { a.pkt with
    tOut := a.block.tOut + delay
    ipT := a.block.ipT
    fragsRecovered := a.pkt.fragsRecovered + 1 }

/-- A drop counts whichever fragment it meets. -/
private theorem entryVerdict_merged (e : IpPkt) (a : Arrival) (as : List Arrival) :
    entryVerdict (merged e a) as = entryVerdict e (a :: as) := by
  cases hd : a.dropped <;> simp [entryVerdict, merged, hd]

/-- The verdict the captured handler gives: the first fragment's CE mark decides. -/
def firstVerdict (as : List Arrival) : FinalPacketVerdict :=
  if as.any Arrival.dropped then .drop
  else if (as.head?.map fun a => a.pkt.ceMarked) = some true then .acceptCe else .accept

private theorem entryVerdict_opened {a : Arrival} (hkept : a.pkt.erase = false) (delay : ℚ)
    (as : List Arrival) : entryVerdict (opened delay a) as = firstVerdict (a :: as) := by
  cases hd : a.dropped <;> simp [entryVerdict, firstVerdict, opened, hd, hkept]

/-- The fragment is taken: `release` follows if it was not dropped. -/
def take (h : CapturedPacketHandler) (a : Arrival) : CapturedPacketHandler :=
  if a.dropped then (PacketHandler.step h a.t).drop a.carrier
  else (PacketHandler.step h a.t).push a.carrier

private theorem arrive_eq (h : CapturedPacketHandler) (a : Arrival) :
    arrive h a = if a.dropped then h.take a else (h.take a).release.1 := by
  unfold arrive take
  split <;> rfl

/-- What taking a fragment leaves alone. -/
private theorem take_frame (h : CapturedPacketHandler) (a : Arrival) :
    (h.take a).verdictLog = h.verdictLog ∧ (h.take a).currentT = a.t ∧
      (h.take a).gaussDist = (if a.dropped then h.gaussDist else h.gaussDist.tail) ∧
      (h.take a).prevReleasedId = h.prevReleasedId ∧ (h.take a).doCheck = h.doCheck := by
  unfold take
  split <;> exact ⟨rfl, rfl, rfl, rfl, rfl⟩

private theorem sortById_singleton (e : IpPkt) : sortById [e] = [e] := rfl

/-- The first fragment opens the entry. -/
private theorem take_open {h : CapturedPacketHandler} {a : Arrival} (hout : h.outPkts = []) :
    (h.take a).outPkts
      = [opened (a.block.backhaulD + h.gaussDist 0 * a.block.backhaulDVar) a] := by
  have hstep : (PacketHandler.step h a.t).outPkts = [] := hout
  unfold take opened
  by_cases hd : a.dropped = true
  · rw [if_pos hd, if_pos hd]
    simp only [drop, Arrival.carrier, hstep, List.foldl_cons, List.foldl_nil, dropOne, removeData,
      List.nil_append]
  · rw [if_neg hd, if_neg hd]
    simp only [push, Arrival.carrier, hstep, List.foldl_cons, List.foldl_nil, pushOne, addData,
      List.nil_append, sortById_singleton]
    rfl

/-- Every other fragment is merged into it. -/
private theorem take_merge {h : CapturedPacketHandler} {e : IpPkt} {a : Arrival}
    (hout : h.outPkts = [e]) (hu : e.uid = a.pkt.uid) : (h.take a).outPkts = [merged e a] := by
  have hstep : (PacketHandler.step h a.t).outPkts = [e] := hout
  unfold take merged
  by_cases hd : a.dropped = true
  · rw [if_pos hd, if_pos hd]
    simp only [drop, Arrival.carrier, hstep, List.foldl_cons, List.foldl_nil, dropOne, removeData,
      if_pos hu]
  · rw [if_neg hd, if_neg hd]
    simp only [push, Arrival.carrier, hstep, List.foldl_cons, List.foldl_nil, pushOne, addData,
      if_pos hu, sortById_singleton]

/-- Once the entry is there, the rest of the packet makes its verdict. -/
def Settles (p : IpPkt) (as : List Arrival) : Prop :=
  ∀ {h : CapturedPacketHandler} {e : IpPkt}, Holds h p e →
    e.size + arrivedBits as = p.originalSize → (∀ a ∈ as, h.currentT ≤ a.t) →
    OnTime h.gaussDist as →
    (feed h as).verdictLog = h.verdictLog ++ [(p.uid, entryVerdict e as)]

/-- One fragment taken, and the rest to come. -/
private theorem feed_take {p e : IpPkt} {a : Arrival} {as : List Arrival}
    {h : CapturedPacketHandler} (hrest : Settles p as) (hfrag : ∀ a ∈ as, a.FragmentOf p)
    (htimes : ∀ b ∈ as, a.t ≤ b.t)
    (hdraws : OnTime (if a.dropped then h.gaussDist else h.gaussDist.tail) as)
    (hh : Holds (h.take a) p e) (htotal : e.size + arrivedBits as = p.originalSize) :
    (feed (arrive h a) as).verdictLog = h.verdictLog ++ [(p.uid, entryVerdict e as)] := by
  obtain ⟨hlog, hnow, hdraw, -⟩ := take_frame h a
  rw [← hdraw] at hdraws
  rw [← hlog, arrive_eq]
  rw [← hnow] at htimes
  by_cases hd : a.dropped = true
  · rw [if_pos hd]
    exact hrest hh htotal htimes hdraws
  · rw [if_neg hd]
    by_cases hne : as = []
    · -- the last fragment completes the entry
      subst hne
      have hready : e.isReady = true := by
        rw [IpPkt.isReady_iff, hh.originalSize, ← htotal]
        norm_num [bitRoundMargin]
      obtain ⟨hempty, hdone⟩ := release_complete hh hready
      exact (release_empty hempty).trans hdone
    · have hready : e.isReady = false := not_ready (one_le_arrivedBits hne hfrag)
        (by rw [hh.originalSize]; exact htotal)
      obtain ⟨hout, hkeep, ht, hg, hprev, hcheck⟩ := release_incomplete hh.entry hready
      rw [← hkeep]
      refine hrest ⟨hout, hh.uid, hh.prevUid, hh.originalSize, ?_, ?_⟩ htotal ?_ ?_
      · rw [ht]; exact hh.due
      · have horder := hh.order
        rw [checkOrder] at horder ⊢
        rw [hprev, hcheck]
        exact horder
      · rw [ht]; exact htimes
      · rw [hg]; exact hdraws

/-- Verdicts follow the entry to the end. -/
private theorem settles {p : IpPkt} (as : List Arrival) (hfrag : ∀ a ∈ as, a.FragmentOf p)
    (htimes : as.Pairwise fun a b => a.t ≤ b.t) : Settles p as := by
  induction as with
  | nil =>
      intro h e hh htotal _ _
      have hready : e.isReady = true := by
        rw [IpPkt.isReady_iff, hh.originalSize, ← htotal]
        norm_num [bitRoundMargin]
      exact (release_complete hh hready).2
  | cons a as ih =>
      intro h e hh htotal hnow htime
      rw [List.forall_mem_cons] at hfrag hnow
      rw [List.pairwise_cons] at htimes
      obtain ⟨-, hnext⟩ := onTime_cons htime
      obtain ⟨-, ht, -, hprev, hcheck⟩ := take_frame h a
      have hmerged : Holds (h.take a) p (merged e a) := by
        refine ⟨take_merge hh.entry (hh.uid.trans hfrag.1.uid.symm), ?_, ?_, ?_, ?_, ?_⟩
        · unfold merged; split <;> exact hh.uid
        · unfold merged; split <;> exact hh.prevUid
        · unfold merged; split <;> exact hh.originalSize
        · rw [ht]
          unfold merged
          split
          · exact Or.inl rfl
          · exact hh.due.imp_right fun hle => hle.trans hnow.1
        · have horder := hh.order
          rw [checkOrder] at horder ⊢
          rw [hprev, hcheck]
          exact horder
      have hsize : (merged e a).size + arrivedBits as = p.originalSize := by
        rw [arrivedBits, weight_cons, ← add_assoc] at htotal
        rw [← htotal]
        unfold merged
        split <;> rfl
      rw [feed_cons, feed_take (ih hfrag.2 htimes.2) hfrag.2 htimes.1 hnext hmerged hsize]
      rw [entryVerdict_merged]

/-- **The captured handler heeds the CE mark of the first fragment only.** -/
theorem feed_first {p : IpPkt} {as : List Arrival} (hsplit : Splits p as)
    {h : CapturedPacketHandler} (hout : h.outPkts = [])
    (horder : h.checkOrder p.prevUid.toInt32 = true)
    (htime : OnTime h.gaussDist as) :
    (feed h as).verdictLog = h.verdictLog ++ [(p.uid, firstVerdict as)] := by
  obtain ⟨hne, hfrag, htotal, htimes⟩ := hsplit
  cases as with
  | nil => exact absurd rfl hne
  | cons a as =>
      rw [List.forall_mem_cons] at hfrag
      rw [List.pairwise_cons] at htimes
      obtain ⟨hdue, hnext⟩ := onTime_cons htime
      obtain ⟨-, ht, -, hprev, hcheck⟩ := take_frame h a
      have hopened : Holds (h.take a) p
          (opened (a.block.backhaulD + h.gaussDist 0 * a.block.backhaulDVar) a) := by
        refine ⟨take_open hout, ?_, ?_, ?_, ?_, ?_⟩
        · unfold opened; split <;> exact hfrag.1.uid
        · unfold opened; split <;> exact hfrag.1.prevUid
        · unfold opened; split <;> exact hfrag.1.originalSize
        · rw [ht]
          unfold opened
          split
          · exact Or.inl rfl
          · rename_i hd
            exact Or.inr (hdue (by simpa using hd))
        · rw [checkOrder] at horder ⊢
          rw [hprev, hcheck]
          exact horder
      have hsize : (opened (a.block.backhaulD + h.gaussDist 0 * a.block.backhaulDVar) a).size
          + arrivedBits as = p.originalSize := by
        rw [arrivedBits, weight_cons] at htotal
        rw [← htotal]
        unfold opened
        split <;> rfl
      rw [feed_cons, feed_take (settles as hfrag.2 htimes.2) hfrag.2 htimes.1 hnext hopened hsize]
      rw [entryVerdict_opened hfrag.1.kept]

end CapturedPacketHandler

/-! ### The two handlers together -/

/-- Whether the mark of the first fragment says all there is to say. -/
private theorem firstVerdict_eq_iff {as : List Arrival} :
    CapturedPacketHandler.firstVerdict as = ruleVerdict as ↔
      (∃ a ∈ as, a.dropped = true) ∨ (∀ a ∈ as, a.pkt.ceMarked = false) ∨
        ∃ a, as.head? = some a ∧ a.pkt.ceMarked = true := by
  unfold CapturedPacketHandler.firstVerdict ruleVerdict
  by_cases hdrop : as.any Arrival.dropped = true
  · rw [if_pos hdrop, if_pos hdrop]
    exact iff_of_true rfl (Or.inl (List.any_eq_true.mp hdrop))
  · rw [if_neg hdrop, if_neg hdrop]
    have hnone : ¬∃ a ∈ as, a.dropped = true := fun h => hdrop (List.any_eq_true.mpr h)
    rw [or_iff_right hnone]
    by_cases hfirst : (as.head?.map fun a => a.pkt.ceMarked) = some true
    · obtain ⟨a, ha, hce⟩ := Option.map_eq_some_iff.mp hfirst
      have hany : (as.any fun a => a.pkt.ceMarked) = true :=
        List.any_eq_true.mpr ⟨a, List.mem_of_head? ha, hce⟩
      rw [if_pos hfirst, if_pos hany]
      exact iff_of_true rfl (Or.inr ⟨a, ha, hce⟩)
    · have hhead : ¬∃ a, as.head? = some a ∧ a.pkt.ceMarked = true :=
        fun h => hfirst (Option.map_eq_some_iff.mpr h)
      rw [if_neg hfirst, or_iff_left hhead]
      by_cases hany : (as.any fun a => a.pkt.ceMarked) = true
      · rw [if_pos hany]
        obtain ⟨a, ha, hce⟩ := List.any_eq_true.mp hany
        refine iff_of_false (by decide) fun hall => ?_
        rw [hall a ha] at hce
        cases hce
      · rw [if_neg hany]
        refine iff_of_true rfl fun a ha => ?_
        by_contra hce
        exact hany (List.any_eq_true.mpr ⟨a, ha, by simpa using hce⟩)

/-- Two fragments of a packet of 1000 bits, both delivered. -/
def twoFragments (firstMarked secondMarked : Bool) : List Arrival :=
  let p := IpPkt.make 0 1000 1000 6 7 0 0
  [⟨0, {}, { p with size := 600, isFragment := true, ceMarked := firstMarked }, false⟩,
    ⟨0, {}, { p with size := 400, isFragment := true, ceMarked := secondMarked }, false⟩]

private theorem twoFragments_splits (m n : Bool) :
    Splits (IpPkt.make 0 1000 1000 6 7 0 0) (twoFragments m n) := by
  refine ⟨by simp [twoFragments], ?_, ?_, by simp [twoFragments]⟩
  · intro a ha
    simp only [twoFragments, List.mem_cons, List.not_mem_nil, or_false] at ha
    rcases ha with rfl | rfl
    · exact ⟨rfl, rfl, rfl, rfl, 600, by decide, by norm_num⟩
    · exact ⟨rfl, rfl, rfl, rfl, 400, by decide, by norm_num⟩
  · norm_num [twoFragments, IpPkt.make]

private theorem twoFragments_onTime (m n : Bool) {d : Draws} : OnTime d (twoFragments m n) := by
  simp [OnTime, twoFragments]

end NetworkEmulator
