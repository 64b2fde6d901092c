/-
Every event of the PDCP layer is a chain of moves of custody.

`Custody` is who holds which packet: the handler, the shelf of the IP buffer, the HARQ
buffer, and the block the layer itself has in hand between two of these.  `Move` lists
the few things the layer ever does with a packet.  `apply_moves` shows that each event
does nothing else, so that what every move keeps, every run keeps.
-/
import NetworkEmulator.Proofs.LayerRules
import NetworkEmulator.Proofs.Shelf

namespace NetworkEmulator

/-- Who holds which packets. -/
structure Custody (H : Type) where
  packetH : H
  shelf : Shelf
  harq : List HarqPkt
  inHand : Option HarqPkt

/-- Whether a move is the handler's `release`. -/
inductive MoveKind where
  | inside
  | release

open PacketHandler in
/-- The things the PDCP layer does with packets. -/
inductive Move {H Env In : Type} [PacketHandler H Env In] :
    Custody H → MoveKind → Custody H → Prop
  /-- The world outside acts on the handler. -/
  | receive (c : Custody H) (e : Env) : Move c .inside { c with packetH := receive c.packetH e }
  | tick (c : Custody H) (t : ℚ) : Move c .inside { c with packetH := step c.packetH t }
  | recordError (c : Custody H) (x : ℚ) :
      Move c .inside { c with packetH := recordError c.packetH x }
  | ingest (c : Custody H) (t : ℚ) (i : In) :
      Move c .inside { c with packetH := (ingest c.packetH t i).1 }
  /-- A packet goes from the ingress queue to the buffer. -/
  | enter (c : Custody H) {p : IpPkt} {h : H} {shelf : Shelf}
      (hpop : popIngressPkt c.packetH = some (p, h))
      (hwait : shelf.waiting.Perm (p :: c.shelf.waiting))
      (hdrop : shelf.dropped = c.shelf.dropped) (hlog : shelf.dropLog = c.shelf.dropLog) :
      Move c .inside { c with packetH := h, shelf := shelf }
  /-- The buffer refuses it. -/
  | refuse (c : Custody H) {p : IpPkt} {h : H} (hpop : popIngressPkt c.packetH = some (p, h)) :
      Move c .inside { c with packetH := dropIngressPkt h p }
  /-- The buffer fills a block.  Sizes stay in whatever subgroup they all lie in. -/
  | fetch (c : Custody H) {shelf : Shelf} {b : HarqPkt} (hnone : c.inHand = none)
      (hy : ∀ G : AddSubgroup ℚ, (∀ n : ℤ, (n : ℚ) ∈ G) → (∀ p ∈ c.shelf.waiting, p.size ∈ G) →
        Shelf.Yields G c.shelf shelf b.pkts) :
      Move c .inside { c with shelf := shelf, inHand := some b }
  /-- A packet the AQM dropped goes back to the handler. -/
  | takeDropped (c : Custody H) {shelf : Shelf} {p : IpPkt} {b : HarqPkt}
      (hdrop : c.shelf.dropped = p :: shelf.dropped) (hwait : shelf.waiting = c.shelf.waiting)
      (hlog : shelf.dropLog = c.shelf.dropLog) (hb : b.pkts = [p]) :
      Move c .inside { c with packetH := drop c.packetH b, shelf := shelf }
  /-- A block leaves the HARQ buffer. -/
  | unstore (c : Custody H) {b : HarqPkt} {harq : List HarqPkt} (hnone : c.inHand = none)
      (hperm : c.harq.Perm (b :: harq)) : Move c .inside { c with harq := harq, inHand := some b }
  /-- The block in hand goes to the HARQ buffer. -/
  | store (c : Custody H) {b b' : HarqPkt} (hsome : c.inHand = some b) (hb : b'.pkts = b.pkts) :
      Move c .inside { c with harq := c.harq ++ [b'], inHand := none }
  | drop (c : Custody H) {b : HarqPkt} (hsome : c.inHand = some b) :
      Move c .inside { c with packetH := drop c.packetH b, inHand := none }
  | push (c : Custody H) {b : HarqPkt} (hsome : c.inHand = some b) :
      Move c .inside { c with packetH := push c.packetH b, inHand := none }
  /-- A block without bits is forgotten. -/
  | discard (c : Custody H) {b : HarqPkt} (hsome : c.inHand = some b)
      (hzero : weight IpPkt.size b.pkts ≤ 0) : Move c .inside { c with inHand := none }
  | release (c : Custody H) : Move c .release { c with packetH := (release c.packetH).1 }

/-! ### The HARQ buffer -/

namespace HarqHandler

/-- What the scan takes out of the HARQ buffer was in it. -/
theorem takeOlder_perm {bound : ℚ} {b : HarqPkt} :
    ∀ {l rest : List HarqPkt}, takeOlder bound l = some (b, rest) →
      l.Perm (b :: rest) := by
  intro l
  induction l with
  | nil => intro rest h; simp [takeOlder] at h
  | cons x l ih =>
      intro rest h
      simp only [takeOlder] at h
      split at h
      · obtain ⟨⟨y, r⟩, hy, hr⟩ := Option.map_eq_some_iff.mp h
        simp only [Prod.mk.injEq] at hr
        obtain ⟨rfl, rfl⟩ := hr
        exact ((ih hy).cons x).trans (List.Perm.swap _ _ _)
      · simp only [Option.some.injEq, Prod.mk.injEq] at h
        obtain ⟨rfl, rfl⟩ := h
        exact .refl _

/-- `pop_pkt_older_than` is the scan, as far as the blocks go. -/
theorem popPktOlderThan_spec {h h' : HarqHandler} {bound : ℚ} {b : HarqPkt}
    (hpop : h.popPktOlderThan bound = some (b, h')) :
    takeOlder bound h.harqBuffer = some (b, h'.harqBuffer) := by
  unfold popPktOlderThan at hpop
  split at hpop
  · cases hpop
  · rename_i x rest hscan
    simp only at hpop
    split at hpop <;> (simp only [Option.some.injEq, Prod.mk.injEq] at hpop
                       obtain ⟨rfl, rfl⟩ := hpop
                       exact hscan)

theorem getPkt_spec {h h' : HarqHandler} {b : HarqPkt} (hget : h.getPkt = some (b, h')) :
    h.harqBuffer = b :: h'.harqBuffer := by
  unfold getPkt at hget
  split at hget
  · split at hget
    · cases hget
    all_goals
      rename_i hbuf
      simp only [Option.some.injEq, Prod.mk.injEq] at hget
      obtain ⟨rfl, rfl⟩ := hget
      exact hbuf
  · cases hget

/-- Drawing a delay leaves the buffer alone. -/
theorem emulateAckDelay_buffer (h : HarqHandler) (d : ℚ) :
    (h.emulateAckDelay d).2.harqBuffer = h.harqBuffer := by
  unfold emulateAckDelay
  cases h.stchstcAir <;> simp only [Bool.false_eq_true, if_true, if_false] <;> split <;> rfl

/-- `add_pkts` appends the block, with another due time. -/
theorem addPkts_spec (h : HarqHandler) (b : HarqPkt) :
    ∃ d, (h.addPkts b).harqBuffer = h.harqBuffer ++ [b.setDelay d] :=
  ⟨_, by simp only [addPkts, pushBack, emulateAckDelay_buffer]; rfl⟩

/-- So does `queue`, which counts the transmission. -/
theorem queue_spec (h : HarqHandler) (b : HarqPkt) (distance : ℚ) :
    ∃ d, (h.queue b distance).harqBuffer
      = h.harqBuffer ++ [{ b with nTx := b.nTx + 1 }.setDelay d] :=
  ⟨_, by simp only [queue, pushBack, emulateAckDelay_buffer]; rfl⟩

end HarqHandler

/-! ### The events -/

namespace PdcpLayer

variable {H Env In : Type} [PacketHandler H Env In]

/-- The custody of a layer that has `o` in hand. -/
def custody (s : PdcpLayer H) (o : Option HarqPkt) : Custody H :=
  ⟨s.packetH, s.ipBuffer.shelf, s.harqBuffer.harqBuffer, o⟩

/-- Any number of moves that are not a `release`. -/
abbrev Moves : Custody H → Custody H → Prop :=
  Relation.ReflTransGen fun c c' => Move c .inside c'

/-- A packet that is offered enters the buffer or goes back to the handler. -/
private theorem offer_moves (s : PdcpLayer H) (o : Option HarqPkt) {p : IpPkt} {h : H}
    (hpop : PacketHandler.popIngressPkt s.packetH = some (p, h)) :
    Move (s.custody o) .inside (({ s with packetH := h }.offer p).custody o) := by
  rcases IpBuffer.addPkt_shelf s.ipBuffer p with ⟨hok, hw, hd, hl⟩ | ⟨hno, hsame⟩ <;>
    rcases offer_cases { s with packetH := h } p with ⟨hbuf, hoffer⟩ | ⟨hbuf, hoffer⟩
  · rw [hoffer]
    exact Move.enter (s.custody o) hpop hw hd hl
  · exact absurd (hok.symm.trans hbuf) (by simp)
  · exact absurd (hno.symm.trans hbuf) (by simp)
  · rw [hoffer]
    have hrefuse := Move.refuse (s.custody o) hpop
    simp only [custody] at hrefuse ⊢
    rw [hsame]
    exact hrefuse

private theorem dropHarqPkt_moves (s : PdcpLayer H) (b : HarqPkt) :
    Moves (s.custody (some b)) ((s.dropHarqPkt b).custody none) :=
  .head (Move.recordError (s.custody (some b)) b.bits)
    (.single (Move.drop { s.custody (some b) with
      packetH := PacketHandler.recordError s.packetH b.bits } rfl))

/-- The block `fetch` answers is the one `get_pkts` filled. -/
theorem fetch_block (s : PdcpLayer H) (bits : ℚ) (mcs distance : ℤ) :
    (s.fetch bits mcs distance).1 = (s.ipBuffer.getPkts bits
      (s.newBlock s.ipBuffer.getOldestTimestamp mcs distance)).2 := rfl

theorem fetch_bits (s : PdcpLayer H) (bits : ℚ) (mcs distance : ℤ) :
    (s.fetch bits mcs distance).1.bits = weight IpPkt.size (s.fetch bits mcs distance).1.pkts := by
  obtain ⟨new, -, hblock⟩ := IpBuffer.getPkts_filled (G := ⊤) (fun _ => trivial) s.ipBuffer bits
    (s.newBlock s.ipBuffer.getOldestTimestamp mcs distance) fun _ _ => trivial
  rw [fetch_block, hblock]
  rfl

/-- What `fetch` puts in the block is what `get_pkts` takes off the shelf. -/
private theorem fill_move (s : PdcpLayer H) (bits : ℚ) (mcs distance : ℤ) :
    Move (s.custody none) .inside
      ((s.fill bits mcs distance).2.custody (some (s.fill bits mcs distance).1)) := by
  refine Move.fetch (s.custody none) rfl fun G hint hsz => ?_
  obtain ⟨new, hy, hblock⟩ := IpBuffer.getPkts_filled hint s.ipBuffer bits
    (s.newBlock s.ipBuffer.getOldestTimestamp mcs distance) hsz
  have hpkts : (s.fill bits mcs distance).1.pkts = new := by
    unfold fill
    rw [hblock]
    rfl
  rw [hpkts]
  exact hy

/-- Appending the block in hand, with another due time, to the HARQ buffer. -/
private theorem store_move (s : PdcpLayer H) {b b' : HarqPkt} {hq : HarqHandler}
    (h : ∃ d, hq.harqBuffer = s.harqBuffer.harqBuffer ++ [b'.setDelay d]) (hb : b'.pkts = b.pkts) :
    Move (s.custody (some b)) .inside ({ s with harqBuffer := hq }.custody none) := by
  obtain ⟨d, hd⟩ := h
  simp only [custody, hd]
  exact Move.store (s.custody (some b)) rfl hb

/-- `step` does nothing but moves, once it has advanced the clock. -/
theorem stepRules_moves (c : Custody H) :
    StepRules fun o (s : PdcpLayer H) => Moves c (s.custody o) where
  drain {o s buffer dropped} h hpop := by
    obtain ⟨p, hd, hw, hl, -, hb⟩ := IpBuffer.popAqmDroppedPkt_spec hpop
    exact (h.tail (Move.recordError (s.custody o) dropped.bits)).tail
      (Move.takeDropped _ hd hw hl hb)
  drop h := h.trans (dropHarqPkt_moves _ _)
  offer h hpop := h.tail (offer_moves _ none hpop)
  count h := h
  expire {s buffer b} h _ hpop := by
    refine h.tail (Move.fetch (s.custody none) rfl fun G _ _ => ?_)
    obtain ⟨p, hy, rfl⟩ := IpBuffer.popOldestPkt_spec G hpop
    exact hy
  unstore {s b harq} h hpop :=
    h.tail (Move.unstore (s.custody none) rfl
      (HarqHandler.takeOlder_perm (HarqHandler.popPktOlderThan_spec hpop)))

/-- So does `handle_pkt`, until it ends. -/
theorem handleRules_moves (c : Custody H) (grant : ℚ) :
    HandleRules grant fun o (s : PdcpLayer H) => Moves c (s.custody o) where
  toDropRules := (stepRules_moves c).toDropRules
  fetch {s} mcs distance h _ _ :=
    (stepRules_moves c).toDropRules.fetch (h.tail (fill_move s grant mcs distance))
  forget {s mcs distance} h hzero := by
    rw [fetch_bits] at hzero
    exact h.tail (Move.discard ((s.fetch grant mcs distance).2.custody _) rfl hzero)
  expired h _ _ := h.trans (dropHarqPkt_moves _ _)
  ready {s b harq} h hget := by
    refine h.tail (Move.unstore (s.custody none) rfl ?_)
    show s.harqBuffer.harqBuffer.Perm (b :: harq.harqBuffer)
    rw [HarqHandler.getPkt_spec hget]

/-- And it ends with one. -/
theorem Ends.move {s s' : PdcpLayer H} {b : HarqPkt} {sent : ℚ} (h : Ends s b sent s') :
    Move (s.custody (some b)) .inside (s'.custody none) := by
  cases h with
  | send => exact Move.push (s.custody (some b)) rfl
  | store => exact store_move s (HarqHandler.addPkts_spec s.harqBuffer b) rfl
  | requeue distance => exact store_move s (HarqHandler.queue_spec s.harqBuffer b distance) rfl

theorem advance_moves (s : PdcpLayer H) (t : ℚ) (i : In) :
    Moves (s.custody none) ((s.advance t i).custody none) := by
  refine .head (Move.tick (s.custody none) t)
    (.head (Move.ingest { s.custody none with packetH := PacketHandler.step s.packetH t } t i) ?_)
  simp only [custody, advance, IpBuffer.shelf_step, HarqHandler.step]
  exact .refl

theorem handlePkt_moves {fuel : ℕ} {s s' : PdcpLayer H} {bits : ℚ} {mcs : ℤ}
    {sinr distance sent : ℚ} (h : s.handlePkt fuel bits mcs sinr distance = some (sent, s')) :
    Moves (s.custody none) (s'.custody none) := by
  rcases handlePkt_rule (handleRules_moves (s.custody none) bits) .refl h with
    ⟨-, hnone⟩ | ⟨b, s₁, hsome, -, hends⟩
  · exact hnone
  · exact hsome.tail hends.move

/-- **Every event is the handler's `release` or a chain of other moves.** -/
theorem apply_moves {fuel : ℕ} {s s' : PdcpLayer H} {e : Event Env In}
    (h : s.apply fuel e = some s') :
    (e = .release ∧ s' = s.release.1) ∨ Moves (s.custody none) (s'.custody none) := by
  cases e with
  | env e =>
      obtain rfl := Option.some.inj h
      exact Or.inr (.single (Move.receive (s.custody none) e))
  | step t i =>
      obtain rfl := Option.some.inj h
      exact Or.inr (step_rule (stepRules_moves (s.custody none)) (advance_moves s t i))
  | handlePkt bits mcs sinr distance =>
      obtain ⟨⟨sent, s₁⟩, hs, rfl⟩ := Option.map_eq_some_iff.mp h
      exact Or.inr (handlePkt_moves hs)
  | release => exact Or.inl ⟨rfl, (Option.some.inj h).symm⟩

/-- What every move keeps, a chain of moves keeps. -/
theorem moves_inv {I : Custody H → Prop} (hmove : ∀ {c c'}, Move c .inside c' → I c → I c')
    {c c' : Custody H} (h : Moves c c') : I c → I c' := by
  induction h with
  | refl => exact id
  | tail _ hm ih => exact fun hI => hmove hm (ih hI)

/-- What every move keeps, every event keeps. -/
theorem apply_inv {I : Custody H → Prop} (hmove : ∀ {k c c'}, Move c k c' → I c → I c')
    {fuel : ℕ} {s s' : PdcpLayer H} {e : Event Env In} (h : s.apply fuel e = some s')
    (hI : I (s.custody none)) : I (s'.custody none) := by
  rcases apply_moves h with ⟨-, rfl⟩ | hmoves
  · exact hmove (Move.release (s.custody none)) hI
  · exact moves_inv hmove hmoves hI

/-- What every move keeps, every run keeps. -/
theorem exec_inv {I : Custody H → Prop} (hmove : ∀ {k c c'}, Move c k c' → I c → I c')
    {fuel : ℕ} {s s' : PdcpLayer H} {es : List (Event Env In)} (hI : I (s.custody none))
    (hrun : s.exec fuel es = some s') : I (s'.custody none) := by
  refine Runs.runAll_inv' (I := fun s => I (s.custody none)) (fun s e s' hs he => ?_) hI hrun
  exact apply_inv hmove he hs

end PdcpLayer

end NetworkEmulator
