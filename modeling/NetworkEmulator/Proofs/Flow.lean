/-
All packets in the PDCP layer, and what a move does to them.

`Custody.all` is every fragment that is anywhere: in the ingress queue, the IP buffer,
the AQM dropped queue, the HARQ buffer, the layer's hand, and with the handler.
`Move.carries` says once what any move does to them: it takes fresh packets in, reworks
what is there, and forgets nothing that has bits.  Each invariant on fragments is then
one application of the rules for `Recut`.
-/
import NetworkEmulator.Proofs.Custody
import NetworkEmulator.Proofs.Keeping

namespace NetworkEmulator

/-- What the layer or a handler may write on a packet. -/
def Relabel (p q : IpPkt) : Prop := Retag p q ∨ Restamp p q

/-- What the layer and the handler may make of packets. -/
abbrev Rework (G : AddSubgroup ℚ) : List IpPkt → List IpPkt → Prop :=
  Recut Relabel (Cut G) Join

theorem Gathers.rework {G : AddSubgroup ℚ} {l l' : List IpPkt} (h : Gathers l l') :
    Rework G l l' := h.mono Or.inr False.elim id

open SimulatedPacketHandler (inBlocks)

namespace Custody

variable {H Env In : Type} [PacketHandler H Env In] [Keeper H]

/-- The fragments of the block in hand. -/
def hand (c : Custody H) : List IpPkt := inBlocks c.inHand.toList

/-- The packets not yet with the handler for release. -/
def upstream (c : Custody H) : List IpPkt :=
  (PacketHandler.base c.packetH).ingressPkts ++
    (c.shelf.waiting ++ (c.shelf.dropped ++ (inBlocks c.harq ++ c.hand)))

/-- Every packet there is. -/
def all (c : Custody H) : List IpPkt := c.upstream ++ Keeper.kept c.packetH

/-- The packets ever taken in. -/
def ingested (c : Custody H) : List IpPkt := (PacketHandler.base c.packetH).ingested

end Custody

section Moves

variable {H Env In : Type} [PacketHandler H Env In] [Keeper H]

/-- What a move does to the packets: `new` came in, `lost` was forgotten. -/
structure Carries (G : AddSubgroup ℚ) (c c' : Custody H) (new lost : List IpPkt) : Prop where
  ingested : c'.ingested = c.ingested ++ new
  fresh : ∀ p ∈ new, p.Fresh
  noBits : weight IpPkt.size lost ≤ 0
  rework : Rework G (c.all ++ new) (c'.all ++ lost)

namespace Carries

variable {G : AddSubgroup ℚ} {c c' : Custody H}

/-- A move that takes nothing in and forgets nothing. -/
private theorem of_rework (hi : c'.ingested = c.ingested) (h : Rework G c.all c'.all) :
    Carries G c c' [] [] :=
  ⟨by simpa using hi, by simp, by simp, by simpa using h⟩

/-- A move that only carries packets from one place to another. -/
private theorem of_perm (hi : c'.ingested = c.ingested)
    (h : (c.all : Multiset IpPkt) = c'.all) : Carries G c c' [] [] :=
  of_rework hi (.perm (Multiset.coe_eq_coe.mp h))

/-- A move on the part `l` of what is upstream and on what the handler keeps. -/
private theorem of_gathers {rest l k k' : List IpPkt} (l' : List IpPkt)
    (hi : c'.ingested = c.ingested) (hc : c.all.Perm (rest ++ (l ++ k)))
    (hc' : c'.all.Perm (rest ++ (l' ++ k')))
    (h : Rework G (l ++ k) (l' ++ k')) : Carries G c c' [] [] :=
  of_rework hi ((Recut.perm hc).trans ((h.append_left rest).trans (Recut.perm hc'.symm)))

end Carries

omit [Keeper H] in
theorem popIngressPkt_intake {h h' : H} {p : IpPkt}
    (hpop : PacketHandler.popIngressPkt h = some (p, h')) :
    (PacketHandler.base h).ingressPkts = p :: (PacketHandler.base h').ingressPkts ∧
      (PacketHandler.base h').ingested = (PacketHandler.base h).ingested := by
  obtain ⟨rest, hq, rfl⟩ := PacketHandler.popIngressPkt_eq_some hpop
  rw [PacketHandler.base_setBase]
  exact ⟨hq, rfl⟩

theorem popIngressPkt_spec {h h' : H} {p : IpPkt}
    (hpop : PacketHandler.popIngressPkt h = some (p, h')) :
    (PacketHandler.base h).ingressPkts = p :: (PacketHandler.base h').ingressPkts ∧
      (PacketHandler.base h').ingested = (PacketHandler.base h).ingested ∧
      Keeper.kept h' = Keeper.kept h := by
  obtain ⟨hin, hing⟩ := popIngressPkt_intake hpop
  obtain ⟨rest, -, rfl⟩ := PacketHandler.popIngressPkt_eq_some hpop
  exact ⟨hin, hing, Keeper.kept_setBase _ _ rfl rfl⟩

theorem popIngressPkt_held {h h' : H} {p : IpPkt}
    (hpop : PacketHandler.popIngressPkt h = some (p, h')) : Keeper.held h' = Keeper.held h := by
  obtain ⟨rest, -, rfl⟩ := PacketHandler.popIngressPkt_eq_some hpop
  exact Keeper.held_setBase _ _ rfl

/-- What a handler keeps when its state changes but its packets do not. -/
private theorem kept_congr {h h' : H} (hh : Keeper.held h' = Keeper.held h ∧
    (PacketHandler.base h').settled = (PacketHandler.base h).settled) :
    Keeper.kept h' = Keeper.kept h := by
  simp only [Keeper.kept, PacketHandlerBase.done, hh.1, hh.2]

variable {G : AddSubgroup ℚ} {k : MoveKind} {c c' : Custody H}

private theorem carries_same {h : H} (hi : SameIntake (PacketHandler.base c.packetH)
    (PacketHandler.base h)) (hk : Keeper.kept h = Keeper.kept c.packetH) :
    Carries G c { c with packetH := h } [] [] := by
  refine .of_perm hi.ingested ?_
  simp only [Custody.all, Custody.upstream, Custody.hand, hi.ingress, hk]

/-- The handler gathers `l`, and the rest of the custody stays as it was. -/
private theorem carries_gathers (l : List IpPkt)
    (hi : (PacketHandler.base c'.packetH).ingested = (PacketHandler.base c.packetH).ingested)
    (hg : Gathers (l ++ Keeper.kept c.packetH) (Keeper.kept c'.packetH))
    (hc : (c.upstream : Multiset IpPkt) = l ++ c'.upstream) : Carries G c c' [] [] := by
  refine .of_gathers [] hi (Multiset.coe_eq_coe.mp ?_) (.refl _) hg.rework
  simp only [Custody.all, ← Multiset.coe_add, hc]
  abel

/-- **What a move does to the packets of the layer.** -/
theorem Move.carries (h : Move c k c') (hint : ∀ n : ℤ, (n : ℚ) ∈ G)
    (hsz : ∀ p ∈ c.all, p.size ∈ G) : ∃ new lost, Carries G c c' new lost := by
  cases h with
  | receive e =>
      exact ⟨[], [], carries_same (PacketHandler.intake_receive _ e)
        (kept_congr (Keeper.kept_receive _ e))⟩
  | tick t =>
      have hi : SameIntake (PacketHandler.base c.packetH)
          (PacketHandler.base (PacketHandler.step c.packetH t)) := by
        rw [PacketHandler.base_step]; exact ⟨rfl, rfl⟩
      exact ⟨[], [], carries_same hi (Keeper.kept_step _ t)⟩
  | recordError x =>
      have hi : SameIntake (PacketHandler.base c.packetH)
          (PacketHandler.base (PacketHandler.recordError c.packetH x)) := by
        rw [PacketHandler.base_recordError]; exact ⟨rfl, rfl⟩
      exact ⟨[], [], carries_same hi (Keeper.kept_recordError _ x)⟩
  | ingest t i =>
      obtain ⟨new, hin, hlog, hfresh⟩ := PacketHandler.ingest_fresh c.packetH t i
      have hk := kept_congr (Keeper.kept_ingest c.packetH t i)
      refine ⟨new, [], hlog, hfresh, by simp, .perm (Multiset.coe_eq_coe.mp ?_)⟩
      simp only [Custody.all, Custody.upstream, Custody.hand, hin, hk, ← Multiset.coe_add,
        Multiset.coe_nil]
      abel
  | @enter p h shelf hpop hwait hdrop hlog =>
      obtain ⟨hin, hing, hk⟩ := popIngressPkt_spec hpop
      refine ⟨[], [], .of_perm hing ?_⟩
      have hw : (shelf.waiting : Multiset IpPkt) = p ::ₘ c.shelf.waiting :=
        Multiset.coe_eq_coe.mpr hwait
      simp only [Custody.all, Custody.upstream, Custody.hand, hin, hk, hdrop, ← Multiset.coe_add,
        hw, ← Multiset.cons_coe, ← Multiset.singleton_add]
      abel
  | @refuse p h hpop =>
      obtain ⟨hin, hing, hk⟩ := popIngressPkt_spec hpop
      have hi := PacketHandler.intake_dropIngressPkt h p
      have hg := Keeper.gathers_dropIngressPkt h p
      change Gathers ([p] ++ Keeper.kept h) (Keeper.kept (PacketHandler.dropIngressPkt h p)) at hg
      rw [hk] at hg
      refine ⟨[], [], carries_gathers [p] (hi.ingested.trans hing) hg ?_⟩
      simp only [Custody.upstream, Custody.hand, hin, hi.ingress, ← Multiset.coe_add,
        ← Multiset.cons_coe, ← Multiset.singleton_add, Multiset.coe_nil]
      abel
  | @fetch shelf b hnone hy =>
      obtain ⟨ds, hd, -, -, hr⟩ := hy G hint fun p hp => hsz p (by
        simp [Custody.all, Custody.upstream, hp])
      have hr : Rework G c.shelf.waiting (shelf.waiting ++ ds ++ b.pkts) :=
        hr.mono Or.inl id False.elim
      refine ⟨[], [], .of_rework rfl ?_⟩
      refine (Recut.perm (Multiset.coe_eq_coe.mp ?_)).trans ((hr.append_left
        ((PacketHandler.base c.packetH).ingressPkts ++ (c.shelf.dropped ++
          (inBlocks c.harq ++ Keeper.kept c.packetH)))).trans
            (Recut.perm (Multiset.coe_eq_coe.mp ?_)))
      · simp only [Custody.all, Custody.upstream, Custody.hand, hnone, Option.toList_none,
          inBlocks, List.flatMap_nil, ← Multiset.coe_add, Multiset.coe_nil]
        abel
      · simp only [Custody.all, Custody.upstream, Custody.hand, Option.toList_some, hd,
          inBlocks, List.flatMap_singleton, ← Multiset.coe_add]
        abel
  | @takeDropped shelf p b hdrop hwait _ hb =>
      have hi := PacketHandler.intake_drop c.packetH b
      refine ⟨[], [], carries_gathers b.pkts hi.ingested (Keeper.gathers_drop c.packetH b) ?_⟩
      simp only [Custody.upstream, Custody.hand, hi.ingress, hdrop, hwait, hb,
        ← Multiset.coe_add, ← Multiset.cons_coe, ← Multiset.singleton_add, Multiset.coe_nil]
      abel
  | @unstore b harq hnone hperm =>
      refine ⟨[], [], .of_perm rfl ?_⟩
      have hq : (inBlocks c.harq : Multiset IpPkt) = b.pkts ++ inBlocks harq :=
        Multiset.coe_eq_coe.mpr (hperm.flatMap_right HarqPkt.pkts)
      simp only [Custody.all, Custody.upstream, Custody.hand, hnone, ← Multiset.coe_add, hq]
      simp only [inBlocks, Option.toList_none, Option.toList_some, List.flatMap_nil,
        List.flatMap_singleton, Multiset.coe_nil]
      abel
  | @store b b' hsome hb =>
      refine ⟨[], [], .of_perm rfl ?_⟩
      simp only [Custody.all, Custody.upstream, Custody.hand, hsome, inBlocks,
        Option.toList_none, Option.toList_some, List.flatMap_nil, List.flatMap_append,
        List.flatMap_singleton, hb, ← Multiset.coe_add, Multiset.coe_nil]
      abel
  | @drop b hsome =>
      have hi := PacketHandler.intake_drop c.packetH b
      refine ⟨[], [], carries_gathers b.pkts hi.ingested (Keeper.gathers_drop c.packetH b) ?_⟩
      simp only [Custody.upstream, Custody.hand, hi.ingress, hsome, inBlocks,
        Option.toList_none, Option.toList_some, List.flatMap_nil, List.flatMap_singleton,
        ← Multiset.coe_add, Multiset.coe_nil]
      abel
  | @push b hsome =>
      have hi := PacketHandler.intake_push c.packetH b
      refine ⟨[], [], carries_gathers b.pkts hi.ingested (Keeper.gathers_push c.packetH b) ?_⟩
      simp only [Custody.upstream, Custody.hand, hi.ingress, hsome, inBlocks,
        Option.toList_none, Option.toList_some, List.flatMap_nil, List.flatMap_singleton,
        ← Multiset.coe_add, Multiset.coe_nil]
      abel
  | @discard b hsome hzero =>
      refine ⟨[], b.pkts, by simp [Custody.ingested], by simp, hzero,
        .perm (Multiset.coe_eq_coe.mp ?_)⟩
      simp only [Custody.all, Custody.upstream, Custody.hand, hsome, inBlocks,
        Option.toList_none, Option.toList_some, List.flatMap_nil, List.flatMap_singleton,
        ← Multiset.coe_add, Multiset.coe_nil]
      abel
  | release =>
      have hi := PacketHandler.intake_release c.packetH
      refine ⟨[], [], carries_gathers [] hi.ingested (Keeper.gathers_release c.packetH) ?_⟩
      simp only [Custody.upstream, Custody.hand, hi.ingress, List.nil_append]

/-! ### Where packets come from -/

/-- A property that fresh packets have and every piece inherits holds of all packets. -/
theorem Move.forall_all {P : IpPkt → Prop} (hP : Inherited Relabel (Cut G) Join P)
    (hint : ∀ n : ℤ, (n : ℚ) ∈ G) (hsz : ∀ p, P p → p.size ∈ G) (hm : Move c k c')
    (hfresh : ∀ p ∈ c'.ingested, p.Fresh → P p) (h : ∀ p ∈ c.all, P p) : ∀ p ∈ c'.all, P p := by
  obtain ⟨new, lost, hf⟩ := hm.carries hint fun p hp => hsz p (h p hp)
  have hbefore : ∀ p ∈ c.all ++ new, P p := by
    intro p hp
    refine (List.mem_append.mp hp).elim (h p) fun hp => hfresh p ?_ (hf.fresh p hp)
    rw [hf.ingested]
    exact List.mem_append_right _ hp
  exact fun p hp => hf.rework.forall_mem hP hbefore p (List.mem_append_left _ hp)

/-- What a move adds to the drop log is a classic packet in the dropped queue. -/
theorem Move.dropLog (hm : Move c k c') : ∀ p ∈ c'.shelf.dropLog,
    p ∈ c.shelf.dropLog ∨ (p ∈ c'.all ∧ p.isL4s = false) := by
  cases hm with
  | enter hpop hwait hdrop hlog => intro p hp; exact Or.inl (hlog ▸ hp)
  | takeDropped hdrop hwait hlog hb => intro p hp; exact Or.inl (hlog ▸ hp)
  | @fetch shelf b hnone hy =>
      obtain ⟨ds, hd, hl, hc, -⟩ := hy ⊤ (fun _ => trivial) (fun _ _ => trivial)
      intro p hp
      rw [hl] at hp
      refine (List.mem_append.mp hp).imp_right fun hp => ⟨?_, hc p hp⟩
      simp [Custody.all, Custody.upstream, hd, hp]
  | _ => intro p hp; exact Or.inl hp

/-- A fragment of one of the packets in `l`. -/
def IpPkt.StemsFrom (l : List IpPkt) (p : IpPkt) : Prop :=
  ∃ q ∈ l, q.uid = p.uid ∧ q.prevUid = p.prevUid ∧ q.originalSize = p.originalSize ∧
    q.originalEcn = p.originalEcn ∧ q.currentT = p.currentT

theorem IpPkt.StemsFrom.mono {l l' : List IpPkt} {p : IpPkt} (hl : l ⊆ l')
    (h : p.StemsFrom l) : p.StemsFrom l' := by
  obtain ⟨q, hq, h⟩ := h
  exact ⟨q, hl hq, h⟩

theorem inherited_stemsFrom (G : AddSubgroup ℚ) (l : List IpPkt) :
    Inherited Relabel (Cut G) Join (IpPkt.StemsFrom l) where
  relabel h hr := by
    rcases hr with hr | hr <;> cases hr <;> exact h
  cut h hc := by cases hc; exact ⟨h, h⟩
  join h _ hj := by cases hj; exact h

/-- Every packet anywhere, and every packet the AQM ever dropped, is a fragment of one
that was taken in. -/
structure Stems (c : Custody H) : Prop where
  all : ∀ p ∈ c.all, p.StemsFrom c.ingested
  dropLog : ∀ p ∈ c.shelf.dropLog, p.StemsFrom c.ingested

theorem Move.ingested_subset (hm : Move c k c') : c.ingested ⊆ c'.ingested := by
  obtain ⟨new, lost, hf⟩ := hm.carries (G := ⊤) (fun _ => trivial) (fun _ _ => trivial)
  rw [hf.ingested]
  exact List.subset_append_left _ _

theorem Stems.move (hm : Move c k c') (h : Stems c) : Stems c' := by
  have hall : ∀ p ∈ c'.all, p.StemsFrom c'.ingested :=
    hm.forall_all (inherited_stemsFrom ⊤ _) (fun _ => trivial) (fun _ _ => trivial)
      (fun p hp _ => ⟨p, hp, rfl, rfl, rfl, rfl, rfl⟩)
      fun p hp => (h.all p hp).mono hm.ingested_subset
  refine ⟨hall, fun p hp => ?_⟩
  rcases hm.dropLog p hp with hp | ⟨hp, -⟩
  · exact (h.dropLog p hp).mono hm.ingested_subset
  · exact hall p hp

/-- Only `ingest` takes packets in. -/
theorem Move.forall_ingested {P : IpPkt → Prop}
    (hnew : ∀ (h : H) t i, (∀ p ∈ (PacketHandler.base h).ingested, P p) →
      ∀ p ∈ (PacketHandler.base (PacketHandler.ingest h t i).1).ingested, P p)
    (hm : Move c k c') (h : ∀ p ∈ c.ingested, P p) : ∀ p ∈ c'.ingested, P p := by
  have hsame {h' : H} (hi : (PacketHandler.base h').ingested = c.ingested) :
      ∀ p ∈ (PacketHandler.base h').ingested, P p := by rwa [hi]
  cases hm with
  | receive e => exact hsame (PacketHandler.intake_receive _ e).ingested
  | tick t => exact hsame (by rw [PacketHandler.base_step]; rfl)
  | recordError x => exact hsame (by rw [PacketHandler.base_recordError]; rfl)
  | ingest t i => exact hnew c.packetH t i h
  | enter hpop => exact hsame (popIngressPkt_spec hpop).2.1
  | refuse hpop =>
      exact hsame ((PacketHandler.intake_dropIngressPkt _ _).ingested.trans
        (popIngressPkt_spec hpop).2.1)
  | takeDropped => exact hsame (PacketHandler.intake_drop _ _).ingested
  | drop => exact hsame (PacketHandler.intake_drop _ _).ingested
  | push => exact hsame (PacketHandler.intake_push _ _).ingested
  | release => exact hsame (PacketHandler.intake_release _).ingested
  | fetch | unstore | store | discard => exact h

/-- The ingress queue is the end of what was taken in, all of it fresh. -/
structure Intake (c : Custody H) : Prop where
  waiting : (PacketHandler.base c.packetH).ingressPkts <:+ c.ingested
  fresh : ∀ p ∈ c.ingested, p.Fresh

omit [Keeper H] in
private theorem Intake.same {c c' : Custody H} (h : Intake c)
    (hi : SameIntake (PacketHandler.base c.packetH) (PacketHandler.base c'.packetH)) :
    Intake c' := by
  have hing : c'.ingested = c.ingested := hi.ingested
  refine ⟨?_, ?_⟩
  · rw [hi.ingress, hing]; exact h.waiting
  · rw [hing]; exact h.fresh

private theorem Intake.pop {c : Custody H} (h : Intake c) (shelf : Shelf) {p : IpPkt} {h' : H}
    (hpop : PacketHandler.popIngressPkt c.packetH = some (p, h')) :
    Intake { c with packetH := h', shelf := shelf } := by
  obtain ⟨hin, hing, -⟩ := popIngressPkt_spec hpop
  have hing : ({ c with packetH := h', shelf := shelf } : Custody H).ingested = c.ingested := hing
  refine ⟨?_, ?_⟩
  · rw [hing]
    exact (hin ▸ List.suffix_cons p _ : _ <:+ _).trans h.waiting
  · rw [hing]; exact h.fresh

theorem Intake.move (hm : Move c k c') (h : Intake c) : Intake c' := by
  cases hm with
  | receive e => exact h.same (PacketHandler.intake_receive _ e)
  | tick t => exact h.same (by rw [PacketHandler.base_step]; exact ⟨rfl, rfl⟩)
  | recordError x => exact h.same (by rw [PacketHandler.base_recordError]; exact ⟨rfl, rfl⟩)
  | ingest t i =>
      obtain ⟨new, hin, hlog, hfresh⟩ := PacketHandler.ingest_fresh c.packetH t i
      obtain ⟨gone, hgone⟩ := h.waiting
      refine ⟨⟨gone, ?_⟩, fun p hp => ?_⟩
      · show gone ++ (PacketHandler.base (PacketHandler.ingest c.packetH t i).1).ingressPkts
          = (PacketHandler.base (PacketHandler.ingest c.packetH t i).1).ingested
        rw [hin, hlog, ← List.append_assoc, hgone]
        rfl
      · change p ∈ (PacketHandler.base (PacketHandler.ingest c.packetH t i).1).ingested at hp
        rw [hlog] at hp
        exact (List.mem_append.mp hp).elim (h.fresh p) (hfresh p)
  | enter hpop => exact h.pop _ hpop
  | refuse hpop => exact (h.pop c.shelf hpop).same (PacketHandler.intake_dropIngressPkt _ _)
  | takeDropped => exact h.same (PacketHandler.intake_drop _ _)
  | drop => exact h.same (PacketHandler.intake_drop _ _)
  | push => exact h.same (PacketHandler.intake_push _ _)
  | release => exact h.same (PacketHandler.intake_release _)
  | fetch | unstore | store | discard => exact h.same .rfl

end Moves

end NetworkEmulator
