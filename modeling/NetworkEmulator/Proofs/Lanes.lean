/-
The order in which packets wait.

Both backends of the IP buffer are two lanes: the L4S and the classic queue of a
DualPI2 queue, or nothing and the plain deque.  Seen so, the oldest packet is the same
for both, the older of two heads.  `Serve` lists what the PDCP layer does to the buffer
and to the packets that wait to enter it, `apply_serves` shows that each event does
nothing else, and `Queued` is what these keep: every packet waiting came in before
those in the ingress queue, and the plain deque is in the order of arrival.
-/
import NetworkEmulator.Library.Purge
import NetworkEmulator.Proofs.Flow
import NetworkEmulator.Proofs.Frame
import NetworkEmulator.Proofs.Progress

namespace NetworkEmulator

open Purge (popOlder)

namespace DualPi2Queue

/-- `peek_oldest` and `pop_oldest` are about the older of the two heads. -/
theorem popOldest_lanes {q : DualPi2Queue} {p : IpPkt} {l c : List IpPkt}
    (hpop : popOlder IpPkt.currentT (q.lQueue, q.cQueue) = some (p, l, c)) :
    q.peekOldest = some p ∧ ∃ q', q.popOldest = some (p, q') ∧ q'.lQueue = l ∧ q'.cQueue = c := by
  unfold peekOldest popOldest oldestIsL4s takeFrom
  cases hl : q.lQueue with
  | nil =>
      cases hc : q.cQueue with
      | nil => simp [hl, hc, popOlder] at hpop
      | cons y cs =>
          simp only [hl, hc, popOlder, Option.some.injEq, Prod.mk.injEq] at hpop
          obtain ⟨rfl, rfl, rfl⟩ := hpop
          exact ⟨rfl, _, rfl, rfl, rfl⟩
  | cons x ls =>
      cases hc : q.cQueue with
      | nil =>
          simp only [hl, hc, popOlder, Option.some.injEq, Prod.mk.injEq] at hpop
          obtain ⟨rfl, rfl, rfl⟩ := hpop
          exact ⟨rfl, _, rfl, rfl, rfl⟩
      | cons y cs =>
          rw [hl, hc, popOlder] at hpop
          by_cases hle : x.currentT ≤ y.currentT
          · rw [if_pos hle] at hpop
            simp only [Option.some.injEq, Prod.mk.injEq] at hpop
            obtain ⟨rfl, rfl, rfl⟩ := hpop
            simp only [hle, if_true, decide_true, Option.map_some]
            exact ⟨trivial, _, rfl, rfl, rfl⟩
          · rw [if_neg hle] at hpop
            simp only [Option.some.injEq, Prod.mk.injEq] at hpop
            obtain ⟨rfl, rfl, rfl⟩ := hpop
            simp only [hle, if_false, decide_false]
            exact ⟨trivial, _, rfl, rfl, rfl⟩

end DualPi2Queue

namespace IpBuffer

/-- The two lanes: the L4S and the classic queue, or nothing and the plain deque. -/
def lanes (b : IpBuffer) : List IpPkt × List IpPkt :=
  if b.l4sCfg.enabled then (b.l4sQueue.lQueue, b.l4sQueue.cQueue) else ([], b.pktList)

/-- The packets in the backend that is not in use. -/
def idle (b : IpBuffer) : List IpPkt :=
  if b.l4sCfg.enabled then b.pktList else b.l4sQueue.lQueue ++ b.l4sQueue.cQueue

/-- The backend in use is the same, and so are the packets in the other one. -/
structure SameBackend (b b' : IpBuffer) : Prop where
  l4sCfg : b'.l4sCfg = b.l4sCfg
  idle : b'.idle = b.idle

theorem SameBackend.refl (b : IpBuffer) : SameBackend b b := ⟨rfl, rfl⟩

theorem SameBackend.trans {b b' b'' : IpBuffer} (h : SameBackend b b') (h' : SameBackend b' b'') :
    SameBackend b b'' := ⟨h'.l4sCfg.trans h.l4sCfg, h'.idle.trans h.idle⟩

theorem SameFrame.sameBackend {b b' : IpBuffer} (h : SameFrame b b') : SameBackend b b' := by
  refine ⟨h.l4sCfg, ?_⟩
  unfold idle
  rw [h.l4sCfg]
  by_cases he : b.l4sCfg.enabled = true
  · rw [if_pos he, if_pos he]
    exact h.plain he
  · rw [if_neg he, if_neg he, h.dual (by simpa using he)]

theorem waiting_perm (b : IpBuffer) :
    b.shelf.waiting.Perm (b.lanes.1 ++ (b.lanes.2 ++ b.idle)) := by
  unfold lanes idle shelf DualPi2Queue.shelf
  by_cases he : b.l4sCfg.enabled = true
  · simp only [if_pos he, ← List.append_assoc]
    rw [List.append_assoc]
    exact List.perm_append_comm
  · simp only [if_neg he, List.nil_append]
    exact .refl _

theorem mem_waiting {b : IpBuffer} (hidle : b.idle = []) {p : IpPkt} :
    p ∈ b.shelf.waiting ↔ p ∈ b.lanes.1 ∨ p ∈ b.lanes.2 := by
  rw [b.waiting_perm.mem_iff, hidle, List.append_nil, List.mem_append]

/-! ### The oldest packet -/

theorem backendHasPkts_eq (b : IpBuffer) :
    b.backendHasPkts = (popOlder IpPkt.currentT b.lanes).isSome := by
  unfold backendHasPkts lanes DualPi2Queue.hasPkts
  by_cases he : b.l4sCfg.enabled = true
  · rw [if_pos he, if_pos he]
    rcases b.l4sQueue.lQueue with _ | ⟨x, l⟩ <;> rcases b.l4sQueue.cQueue with _ | ⟨y, c⟩ <;>
      simp only [popOlder] <;> try rfl
    split <;> rfl
  · rw [if_neg he, if_neg he]
    rcases b.pktList with _ | ⟨y, c⟩ <;> rfl

theorem backendSize_eq (b : IpBuffer) :
    b.backendSize = b.lanes.1.length + b.lanes.2.length := by
  unfold backendSize lanes
  split
  · rfl
  · exact (Nat.zero_add _).symm

/-- `pop_oldest_pkt` takes the older of the two heads. -/
theorem popOldestPkt_lanes {b : IpBuffer} {p : IpPkt} {l c : List IpPkt}
    (hpop : popOlder IpPkt.currentT b.lanes = some (p, l, c)) (out : HarqPkt) :
    b.getOldestTimestamp = p.currentT ∧ ∃ b', b.popOldestPkt out
        = some (b', { out with bits := p.size, pkts := [p] }) ∧ b'.lanes = (l, c) := by
  have hhas : b.backendHasPkts = true := by rw [backendHasPkts_eq, hpop]; rfl
  unfold getOldestTimestamp popOldestPkt backendOldestTimestamp backendPopOldest
  simp only [if_pos hhas]
  unfold lanes at hpop
  by_cases he : b.l4sCfg.enabled = true
  · rw [if_pos he] at hpop
    obtain ⟨hpeek, q', hq', hl, hc⟩ := DualPi2Queue.popOldest_lanes hpop
    simp only [if_pos he, hq', DualPi2Queue.oldestTimestamp, hpeek]
    refine ⟨trivial, _, rfl, ?_⟩
    simp only [lanes, if_pos he, hl, hc]
  · rw [if_neg he] at hpop
    cases hlist : b.pktList with
    | nil => simp [hlist, popOlder] at hpop
    | cons x rest =>
        simp only [hlist, popOlder, Option.some.injEq, Prod.mk.injEq] at hpop
        obtain ⟨rfl, rfl, rfl⟩ := hpop
        simp only [if_neg he, popFront, hlist]
        refine ⟨trivial, _, rfl, ?_⟩
        simp only [lanes, if_neg he]

/-! ### What else the operations do to the lanes -/

theorem lanes_step (b : IpBuffer) (t : ℚ) : (b.step t).lanes = b.lanes := by
  unfold lanes step
  by_cases he : b.l4sCfg.enabled = true
  · simp only [if_pos he, DualPi2Queue.step_queues]
  · simp only [if_neg he]

theorem sameBackend_step (b : IpBuffer) (t : ℚ) : SameBackend b (b.step t) := by
  refine ⟨rfl, ?_⟩
  unfold idle step
  by_cases he : b.l4sCfg.enabled = true
  · simp only [if_pos he]
  · simp only [if_neg he]

/-- A packet that is no fragment goes to the back of one lane. -/
private theorem requeue_lanes {b b₁ : IpBuffer} {p : IpPkt} (hp : p.isFragment = false)
    (hlanes : b₁.lanes = b.lanes) : ∃ l c, (b₁.backendRequeueFront p).lanes
        = (b.lanes.1 ++ l, b.lanes.2 ++ c) ∧ (l ++ c).Sublist [p] := by
  rw [← hlanes]
  unfold backendRequeueFront
  by_cases he : b₁.l4sCfg.enabled = true
  · rw [if_pos he]
    by_cases hl4s : p.isL4s = true
    · unfold DualPi2Queue.enqueue
      rw [if_pos hl4s]
      refine ⟨[p], [], ?_, by simp⟩
      simp only [lanes, if_pos he, List.append_nil]
      rfl
    · obtain ⟨hl, hc⟩ := b₁.l4sQueue.enqueue_classic (by simpa using hl4s : p.isL4s = false)
      refine ⟨[], [p], ?_, by simp⟩
      simp only [lanes, if_pos he, List.append_nil, hl, hc]
  · rw [if_neg he, if_neg (by simp [hp])]
    refine ⟨[], [p], ?_, by simp⟩
    simp only [lanes, if_neg he, List.append_nil]

/-- The buffer takes such a packet so, or refuses it. -/
theorem addPkt_lanes (b : IpBuffer) {p : IpPkt} (hp : p.isFragment = false) :
    SameBackend b (b.addPkt p).2 ∧
      ∃ l c, (b.addPkt p).2.lanes = (b.lanes.1 ++ l, b.lanes.2 ++ c) ∧ (l ++ c).Sublist [p] := by
  cases hok : (b.addPkt p).1 with
  | false =>
      rw [(addPkt_refused b p).2 hok]
      refine ⟨⟨rfl, rfl⟩, [], [], ?_, List.nil_sublist _⟩
      rw [List.append_nil, List.append_nil]
      rfl
  | true =>
      refine ⟨(addPkt_frame hok).sameBackend, ?_⟩
      unfold addPkt at hok ⊢
      split
      · rename_i hfull
        rw [if_pos hfull] at hok
        cases hok
      · simp only
        split
        · exact requeue_lanes hp rfl
        · exact requeue_lanes hp rfl

/-- The plain deque gives from its front, and a remainder goes back there, so what is
left is in order. -/
private theorem loopRules_times (times : List ℚ) :
    LoopRules fun _ b _ => b.l4sCfg.enabled = false ∧
      (∀ p ∈ b.pktList, p.size ≤ p.originalSize) ∧
      (b.pktList.map IpPkt.currentT).Sublist times := by
  have hpop {b b' : IpBuffer} {o : Option IpPkt} (he : b.l4sCfg.enabled = false)
      (h : b.backendPopNext = (o, b')) :
      (o = none ∧ b' = b) ∨ ∃ p rest, o = some p ∧ b.pktList = p :: rest ∧
        b' = { b with pktList := rest } := by
    cases hlist : b.pktList with
    | nil =>
        simp only [backendPopNext, he, Bool.false_eq_true, if_false, popFront, hlist,
          Prod.mk.injEq] at h
        exact Or.inl ⟨h.1.symm, h.2.symm⟩
    | cons p rest =>
        simp only [backendPopNext, he, Bool.false_eq_true, if_false, popFront, hlist,
          Prod.mk.injEq] at h
        exact Or.inr ⟨p, rest, h.1.symm, rfl, h.2.symm⟩
  refine ⟨fun {_ b _ _} h hnone => ?_, fun {_ b _ _ p} h hsome _ => ?_,
    fun {bits b _ _ p} h hpos hsome _ => ?_⟩
  · rcases hpop h.1 hnone with ⟨-, rfl⟩ | ⟨p, rest, hp, -, -⟩
    · exact h
    · cases hp
  · rcases hpop h.1 hsome with ⟨hp, -⟩ | ⟨x, rest, hp, hlist, rfl⟩
    · cases hp
    · obtain ⟨he, hfits, hsub⟩ := h
      rw [hlist] at hfits hsub
      exact ⟨he, fun q hq => hfits q (List.mem_cons_of_mem _ hq),
        (List.sublist_cons_self _ _).trans hsub⟩
  · rcases hpop h.1 hsome with ⟨hp, -⟩ | ⟨x, rest, hp, hlist, rfl⟩
    · cases hp
    · obtain rfl := Option.some.inj hp
      obtain ⟨he, hfits, hsub⟩ := h
      rw [hlist] at hfits hsub
      have hx : p.size - bits ≤ p.originalSize := by
        linarith [hfits p (List.mem_cons_self ..)]
      have hfront : (p.piece (p.size - bits)).size ≤ (p.piece (p.size - bits)).originalSize ∧
          (p.piece (p.size - bits)).isFragment = true := ⟨hx, rfl⟩
      rw [backendRequeueFront_plain (b := { b with pktList := rest }) he hfront]
      refine ⟨he, fun q hq => ?_, hsub⟩
      rcases List.mem_cons.mp hq with rfl | hq
      · exact hx
      · exact hfits q (List.mem_cons_of_mem _ hq)

theorem getPkts_times {b : IpBuffer} (grant : ℚ) (out : HarqPkt) (he : b.l4sCfg.enabled = false)
    (hfits : ∀ p ∈ b.pktList, p.size ≤ p.originalSize) :
    ((b.getPkts grant out).1.pktList.map IpPkt.currentT).Sublist
      (b.pktList.map IpPkt.currentT) := by
  obtain ⟨_, b', ⟨-, -, hsub⟩, heq⟩ := getPkts_rule (loopRules_times _) b grant out
    ⟨he, hfits, .refl _⟩
  rw [heq]
  exact hsub

/-- Taking the oldest packet shortens one lane. -/
private theorem popOldestPkt_sublist {b b' : IpBuffer} {out out' : HarqPkt}
    (h : b.popOldestPkt out = some (b', out')) : b'.lanes.2.Sublist b.lanes.2 := by
  have hhas : b.backendHasPkts = true := by
    by_contra hno
    simp [popOldestPkt, hno] at h
  rw [backendHasPkts_eq, Option.isSome_iff_exists] at hhas
  obtain ⟨⟨p, l, c⟩, hpop⟩ := hhas
  obtain ⟨-, b'', hb'', hlanes⟩ := popOldestPkt_lanes hpop out
  rw [hb'', Option.some.injEq, Prod.mk.injEq] at h
  obtain ⟨rfl, -⟩ := h
  rw [hlanes]
  show c.Sublist b.lanes.2
  rcases hb : b.lanes with ⟨_ | ⟨x, l₁⟩, _ | ⟨y, c₁⟩⟩ <;> rw [hb, popOlder] at hpop
  · cases hpop
  · simp only [Option.some.injEq, Prod.mk.injEq] at hpop
    obtain ⟨-, -, rfl⟩ := hpop
    exact List.sublist_cons_self _ _
  · simp only [Option.some.injEq, Prod.mk.injEq] at hpop
    obtain ⟨-, -, rfl⟩ := hpop
    exact .refl _
  · split at hpop <;> simp only [Option.some.injEq, Prod.mk.injEq] at hpop
    · obtain ⟨-, -, rfl⟩ := hpop
      exact .refl _
    · obtain ⟨-, -, rfl⟩ := hpop
      exact List.sublist_cons_self _ _

/-- The packets the AQM dropped are in neither lane. -/
private theorem popAqmDroppedPkt_lanes {b b' : IpBuffer} {out out' : HarqPkt}
    (h : b.popAqmDroppedPkt out = some (b', out')) : b'.lanes = b.lanes := by
  obtain ⟨p, rest, -, -, rfl, -⟩ := popAqmDroppedPkt_eq_some h
  rfl

theorem lanes_plain {b : IpBuffer} (he : b.l4sCfg.enabled = false) :
    b.lanes = ([], b.pktList) := by
  simp only [lanes, he, Bool.false_eq_true, if_false]

end IpBuffer

/-! ### What the layer does to the buffer -/

/-- The buffer, the packets that wait to enter it, and all that ever came in. -/
structure Feed where
  buffer : IpBuffer
  ingress : List IpPkt
  ingested : List IpPkt

/-- The things the PDCP layer does to the buffer and the ingress queue. -/
inductive Serve : Feed → Feed → Prop
  | tick (f : Feed) (t : ℚ) : Serve f { f with buffer := f.buffer.step t }
  | ingest (f : Feed) {new : List IpPkt} (hfresh : ∀ p ∈ new, p.Fresh) :
      Serve f { f with ingress := f.ingress ++ new, ingested := f.ingested ++ new }
  | enter (f : Feed) {p : IpPkt} {rest : List IpPkt} (h : f.ingress = p :: rest) :
      Serve f { f with buffer := (f.buffer.addPkt p).2, ingress := rest }
  | fill (f : Feed) (grant : ℚ) (out : HarqPkt) :
      Serve f { f with buffer := (f.buffer.getPkts grant out).1 }
  | expire (f : Feed) {b : IpBuffer} {out out' : HarqPkt}
      (h : f.buffer.popOldestPkt out = some (b, out')) : Serve f { f with buffer := b }
  | drain (f : Feed) {b : IpBuffer} {out out' : HarqPkt}
      (h : f.buffer.popAqmDroppedPkt out = some (b, out')) : Serve f { f with buffer := b }
  | dropPkt (f : Feed) (bits : ℚ) : Serve f { f with buffer := f.buffer.dropPkt bits }

abbrev Serves : Feed → Feed → Prop := Relation.ReflTransGen Serve

namespace PdcpLayer

variable {H Env In : Type} [PacketHandler H Env In]

def feed (s : PdcpLayer H) : Feed :=
  ⟨s.ipBuffer, (PacketHandler.base s.packetH).ingressPkts, (PacketHandler.base s.packetH).ingested⟩

/-- A change of the handler that takes nothing in leaves the feed alone. -/
private theorem feed_packetH (s : PdcpLayer H) {h : H}
    (hi : SameIntake (PacketHandler.base s.packetH) (PacketHandler.base h)) :
    ({ s with packetH := h } : PdcpLayer H).feed = s.feed := by
  unfold feed
  rw [hi.ingress, hi.ingested]

private theorem sameIntake_recordError (h : H) (bits : ℚ) :
    SameIntake (PacketHandler.base h) (PacketHandler.base (PacketHandler.recordError h bits)) := by
  rw [PacketHandler.base_recordError]
  exact ⟨rfl, rfl⟩

private theorem sameIntake_drop (h : H) (bits : ℚ) (b : HarqPkt) :
    SameIntake (PacketHandler.base h)
      (PacketHandler.base (PacketHandler.drop (PacketHandler.recordError h bits) b)) :=
  (sameIntake_recordError h bits).trans (PacketHandler.intake_drop _ b)

theorem dropHarqPkt_serves (s : PdcpLayer H) (b : HarqPkt) :
    Serves s.feed (s.dropHarqPkt b).feed := by
  have hfeed : (s.dropHarqPkt b).feed = { s.feed with buffer := s.ipBuffer.dropPkt b.bits } := by
    unfold dropHarqPkt
    exact feed_packetH { s with ipBuffer := s.ipBuffer.dropPkt b.bits }
      (sameIntake_drop s.packetH b.bits b)
  rw [hfeed]
  exact .single (Serve.dropPkt s.feed b.bits)

/-- What offering a packet to the buffer does, besides telling the handler. -/
theorem offer_spec (s : PdcpLayer H) (p : IpPkt) :
    (s.offer p).ipBuffer = (s.ipBuffer.addPkt p).2 ∧
      SameIntake (PacketHandler.base s.packetH) (PacketHandler.base (s.offer p).packetH) ∧
      (s.offer p).harqBuffer = s.harqBuffer ∧ (s.offer p).currentT = s.currentT ∧
      (s.offer p).pktDelayBudgetS = s.pktDelayBudgetS ∧
      (s.offer p).expiredLog = s.expiredLog := by
  unfold offer
  rcases s.ipBuffer.addPkt p with ⟨_ | _, b⟩
  · exact ⟨rfl, PacketHandler.intake_dropIngressPkt s.packetH p, rfl, rfl, rfl, rfl⟩
  · exact ⟨rfl, .rfl, rfl, rfl, rfl, rfl⟩

private theorem offer_serves (s : PdcpLayer H) {p : IpPkt} {h : H}
    (hpop : PacketHandler.popIngressPkt s.packetH = some (p, h)) :
    Serves s.feed ({ s with packetH := h }.offer p).feed := by
  obtain ⟨hin, hing⟩ := popIngressPkt_intake hpop
  obtain ⟨hbuf, hi, -⟩ := offer_spec { s with packetH := h } p
  have hfeed : ({ s with packetH := h }.offer p).feed = { s.feed with
      buffer := (s.ipBuffer.addPkt p).2, ingress := (PacketHandler.base h).ingressPkts } := by
    unfold feed
    rw [hbuf, hi.ingress, hi.ingested]
    simp only [hing]
  rw [hfeed]
  exact .single (Serve.enter s.feed hin)

theorem advance_serves (s : PdcpLayer H) (t : ℚ) (i : In) : Serves s.feed (s.advance t i).feed := by
  obtain ⟨new, hin, hlog, hfresh⟩ :=
    PacketHandler.ingest_fresh (PacketHandler.step s.packetH t) t i
  have hfeed : (s.advance t i).feed = { s.feed with
      buffer := s.ipBuffer.step t
      ingress := s.feed.ingress ++ new
      ingested := s.feed.ingested ++ new } := by
    simp only [feed, advance, hin, hlog, PacketHandler.base_step]
    rfl
  rw [hfeed]
  exact .head (Serve.tick s.feed t)
    (.single (Serve.ingest { s.feed with buffer := s.ipBuffer.step t } hfresh))

private theorem dropRules_serves (f : Feed) :
    DropRules fun _ (s : PdcpLayer H) => Serves f s.feed where
  drain {o s buffer dropped} h hpop := by
    rw [returnDropped, feed_packetH { s with ipBuffer := buffer } (sameIntake_drop s.packetH _ _)]
    exact h.tail (Serve.drain s.feed hpop)
  drop h := h.trans (dropHarqPkt_serves _ _)

theorem fetch_serves (s : PdcpLayer H) (bits : ℚ) (mcs distance : ℤ) :
    Serves s.feed (s.fetch bits mcs distance).2.feed :=
  (dropRules_serves s.feed).fetch
    (.single (Serve.fill s.feed bits (s.newBlock s.ipBuffer.getOldestTimestamp mcs distance)))

/-- The layer serves the buffer in these ways only. -/
theorem layerRules_serves (f : Feed) : LayerRules fun _ (s : PdcpLayer H) => Serves f s.feed where
  toDropRules := dropRules_serves f
  offer h hpop := h.trans (offer_serves _ hpop)
  count h := h
  expire {s _ _} h _ hpop := h.tail (Serve.expire s.feed hpop)
  unstore h _ := h
  handle grant := {
    toDropRules := dropRules_serves f
    fetch := fun mcs distance h _ _ => h.trans (fetch_serves _ grant mcs distance)
    forget := fun h _ => h
    expired := fun h _ _ => h.trans (dropHarqPkt_serves _ _)
    ready := fun h _ => h }
  ends {s b _ _} h hends := by
    cases hends with
    | send =>
        rw [feed_packetH s (PacketHandler.intake_push s.packetH b)]
        exact h
    | store | requeue => exact h
  advance t i h := h.trans (advance_serves _ t i)
  receive {s} e h := by
    rw [feed_packetH s (PacketHandler.intake_receive s.packetH e)]
    exact h
  release {s} h := by
    have hfeed := feed_packetH s (PacketHandler.intake_release s.packetH)
    exact hfeed ▸ h

theorem step_serves (s : PdcpLayer H) (t : ℚ) (i : In) : Serves s.feed (s.step t i).feed :=
  step_rule (layerRules_serves s.feed).toStepRules (advance_serves s t i)

/-- **Every event serves the buffer in these ways.** -/
theorem apply_serves {fuel : ℕ} {s s' : PdcpLayer H} {e : Event Env In}
    (h : s.apply fuel e = some s') : Serves s.feed s'.feed :=
  apply_rule (layerRules_serves s.feed) .refl h

end PdcpLayer

/-! ### The order of arrival -/

/-- What every run keeps of the packets waiting: they came in before those in the
ingress queue, and the plain deque has them in the order in which they came. -/
structure Queued (cfg : DualPi2Config) (f : Feed) : Prop where
  l4sCfg : f.buffer.l4sCfg = cfg
  idle : f.buffer.idle = []
  fits : ∀ p ∈ f.buffer.shelf.waiting, 0 ≤ p.size ∧ p.size ≤ p.originalSize
  fresh : ∀ p ∈ f.ingress, p.Fresh
  times : ∃ gone, f.ingested = gone ++ f.ingress ∧
    (∀ p ∈ f.buffer.shelf.waiting, p.currentT ∈ gone.map IpPkt.currentT) ∧
    (f.buffer.l4sCfg.enabled = false →
      (f.buffer.pktList.map IpPkt.currentT).Sublist (gone.map IpPkt.currentT))

/-- Cutting and marking change no timestamp and make no packet larger. -/
private theorem inherited_times (l : List ℚ) : Inherited Retag (Cut ⊤) Never
    fun p => (0 ≤ p.size ∧ p.size ≤ p.originalSize) ∧ p.currentT ∈ l where
  relabel h hr := by cases hr <;> exact h
  cut {p _ _} h hc := by
    obtain ⟨hpos, hlt, -⟩ := hc
    refine ⟨⟨⟨sub_nonneg.mpr hlt.le, ?_⟩, h.2⟩, ⟨hpos.le, hlt.le.trans h.1.2⟩, h.2⟩
    show p.size - _ ≤ p.originalSize
    linarith [h.1.2]
  join _ _ hj := hj.elim

/-- A step of the buffer that takes packets out, or leaves them alone. -/
private theorem Queued.takes {cfg : DualPi2Config} {f : Feed} {b : IpBuffer} (h : Queued cfg f)
    (hsame : IpBuffer.SameBackend f.buffer b)
    (hmem : ∀ {P : IpPkt → Prop}, Inherited Retag (Cut ⊤) Never P →
      (∀ p ∈ f.buffer.shelf.waiting, P p) → ∀ p ∈ b.shelf.waiting, P p)
    (hplain : f.buffer.l4sCfg.enabled = false →
      (b.pktList.map IpPkt.currentT).Sublist (f.buffer.pktList.map IpPkt.currentT)) :
    Queued cfg { f with buffer := b } := by
  obtain ⟨gone, hing, hfrom, hsub⟩ := h.times
  have hall := hmem (inherited_times (gone.map IpPkt.currentT))
    fun p hp => ⟨h.fits p hp, hfrom p hp⟩
  refine ⟨hsame.l4sCfg.trans h.l4sCfg, hsame.idle.trans h.idle, fun p hp => (hall p hp).1,
    h.fresh, gone, hing, fun p hp => (hall p hp).2, fun he => ?_⟩
  have he : f.buffer.l4sCfg.enabled = false := by rw [← hsame.l4sCfg]; exact he
  exact (hplain he).trans (hsub he)

/-- A packet enters, or is refused. -/
private theorem Queued.enter {cfg : DualPi2Config} {f : Feed} (h : Queued cfg f) {p : IpPkt}
    {rest : List IpPkt} (hin : f.ingress = p :: rest) :
    Queued cfg { f with buffer := (f.buffer.addPkt p).2, ingress := rest } := by
  have hp : p.Fresh := h.fresh p (by rw [hin]; exact List.mem_cons_self ..)
  obtain ⟨hsame, l, c, hlanes, hlc⟩ := IpBuffer.addPkt_lanes f.buffer hp.notFragment
  obtain ⟨gone, hing, hfrom, hsub⟩ := h.times
  have hmem : ∀ q ∈ (f.buffer.addPkt p).2.shelf.waiting, q = p ∨ q ∈ f.buffer.shelf.waiting := by
    intro q hq
    rcases IpBuffer.addPkt_shelf f.buffer p with ⟨-, hperm, -⟩ | ⟨-, hshelf⟩
    · exact List.mem_cons.mp (hperm.mem_iff.mp hq)
    · exact Or.inr (hshelf ▸ hq)
  refine ⟨hsame.l4sCfg.trans h.l4sCfg, hsame.idle.trans h.idle, ?_, ?_, gone ++ [p], ?_, ?_, ?_⟩
  · intro q hq
    rcases hmem q hq with rfl | hq
    · exact ⟨hp.nonneg, hp.whole.le⟩
    · exact h.fits q hq
  · intro q hq
    exact h.fresh q (by rw [hin]; exact List.mem_cons_of_mem _ hq)
  · rw [hing, hin, List.append_assoc]
    rfl
  · intro q hq
    rw [List.map_append, List.mem_append]
    rcases hmem q hq with rfl | hq
    · exact Or.inr (by simp)
    · exact Or.inl (hfrom q hq)
  · intro he
    have he' : f.buffer.l4sCfg.enabled = false := by rw [← hsame.l4sCfg]; exact he
    rw [IpBuffer.lanes_plain he, IpBuffer.lanes_plain he', Prod.mk.injEq] at hlanes
    rw [hlanes.2, List.map_append, List.map_append]
    exact (hsub he').append (((List.sublist_append_right l c).trans hlc).map _)

theorem Queued.serve {cfg : DualPi2Config} {f f' : Feed} (hs : Serve f f') (h : Queued cfg f) :
    Queued cfg f' := by
  cases hs with
  | tick t =>
      refine h.takes (IpBuffer.sameBackend_step _ t) (fun _ hP => ?_) fun _ => .refl _
      rw [IpBuffer.shelf_step]
      exact hP
  | @ingest new hfresh =>
      obtain ⟨gone, hing, hfrom, hsub⟩ := h.times
      refine ⟨h.l4sCfg, h.idle, h.fits, ?_, gone, ?_, hfrom, hsub⟩
      · intro p hp
        exact (List.mem_append.mp hp).elim (h.fresh p) (hfresh p)
      · rw [hing, List.append_assoc]
  | enter hin => exact h.enter hin
  | fill grant out =>
      obtain ⟨new, hy, -⟩ := IpBuffer.getPkts_filled (G := ⊤) (fun _ => trivial) f.buffer grant out
        fun _ _ => trivial
      refine h.takes (IpBuffer.getPkts_frame _ grant out).sameBackend
        (fun hP hw => (hy.forall_mem hP hw).1) fun he => ?_
      refine IpBuffer.getPkts_times grant out he fun p hp => (h.fits p ?_).2
      exact List.mem_append_left _ hp
  | expire hpop =>
      have hsame := (IpBuffer.popOldestPkt_frame hpop).sameBackend
      have hsub := IpBuffer.popOldestPkt_sublist hpop
      obtain ⟨p, hy, -⟩ := IpBuffer.popOldestPkt_spec ⊤ hpop
      refine h.takes hsame (fun hP hw => (hy.forall_mem hP hw).1) fun he => ?_
      have he' := he
      rw [← hsame.l4sCfg] at he'
      rw [IpBuffer.lanes_plain he, IpBuffer.lanes_plain he'] at hsub
      exact hsub.map _
  | drain hpop =>
      have hsame := (IpBuffer.popAqmDroppedPkt_frame hpop).sameBackend
      have hlanes := IpBuffer.popAqmDroppedPkt_lanes hpop
      obtain ⟨p, -, hw, -⟩ := IpBuffer.popAqmDroppedPkt_spec hpop
      refine h.takes hsame (fun _ hP => hw ▸ hP) fun he => ?_
      have he' := he
      rw [← hsame.l4sCfg] at he'
      rw [IpBuffer.lanes_plain he, IpBuffer.lanes_plain he', Prod.mk.injEq] at hlanes
      rw [hlanes.2]
  | dropPkt bits => exact h.takes ⟨rfl, rfl⟩ (fun _ hP => hP) fun _ => .refl _

theorem Queued.serves {cfg : DualPi2Config} {f f' : Feed} (hs : Serves f f')
    (h : Queued cfg f) : Queued cfg f' := by
  induction hs with
  | refl => exact h
  | tail _ hstep ih => exact ih.serve hstep

namespace PdcpLayer

variable {H Env In : Type} [PacketHandler H Env In]

/-- The queues of a layer that has just been made are in order. -/
theorem new_queued (cfg : PacketHandlerConfig) (verbosity : ℤ) (seeds : Seeds) {packetH : H}
    (budgetS : ℚ) (hin : (PacketHandler.base packetH).ingressPkts = [])
    (hing : (PacketHandler.base packetH).ingested = []) :
    Queued cfg.l4sC ((make cfg verbosity seeds packetH).setPktDelayBudget budgetS).feed := by
  refine ⟨rfl, ?_, by rintro p ⟨⟩, ?_, [], ?_, by rintro p ⟨⟩, fun _ => .slnil⟩
  · show IpBuffer.idle _ = []
    unfold IpBuffer.idle
    split <;> rfl
  · intro p hp
    change p ∈ (PacketHandler.base packetH).ingressPkts at hp
    rw [hin] at hp
    cases hp
  · exact hing.trans hin.symm

/-- So are those of every state that it reaches. -/
theorem exec_queued {cfg : PacketHandlerConfig} {verbosity : ℤ} {seeds : Seeds} {packetH : H}
    {budgetS : ℚ} (hin : (PacketHandler.base packetH).ingressPkts = [])
    (hing : (PacketHandler.base packetH).ingested = []) {fuel : ℕ} {es : List (Event Env In)}
    {s : PdcpLayer H}
    (hrun : ((make cfg verbosity seeds packetH).setPktDelayBudget budgetS).exec fuel es = some s) :
    Queued cfg.l4sC s.feed :=
  Runs.runAll_inv' (I := fun s => Queued cfg.l4sC s.feed)
    (fun _ _ _ hs he => hs.serves (apply_serves he))
    (new_queued cfg verbosity seeds budgetS hin hing) hrun

end PdcpLayer

end NetworkEmulator
