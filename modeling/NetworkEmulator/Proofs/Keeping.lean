/-
What the packet handlers do to the packets they hold.

A handler holds fragments that wait to be released, and it is done with those it
delivered or dropped.  Together they are what it has `kept`.  A handler never cuts
anything; the captured handler joins the fragments of a packet into one entry.  Both
handlers are shown to keep exactly what they are given, which is all later files use
of their code when they count bits or follow a flag.
-/
import NetworkEmulator.Library.Recut
import NetworkEmulator.Model.SimulatedPacketHandler
import NetworkEmulator.Model.CapturedPacketHandler

namespace NetworkEmulator

/-- What a handler writes on a packet as it takes it. -/
inductive Restamp : IpPkt → IpPkt → Prop
  | mk (p : IpPkt) (tOut ipT : ℚ) (erase : Bool) (recovered : ℕ) :
      Restamp p { p with tOut := tOut, ipT := ipT, erase := erase, fragsRecovered := recovered }

/-- Two fragments of one packet become one entry, which is like the first. -/
inductive Join : IpPkt → IpPkt → IpPkt → Prop
  | mk {p q : IpPkt} (h : p.uid = q.uid) (erase : Bool) (recovered created : ℕ) :
      Join p q { p with
        size := p.size + q.size
        erase := erase
        fragsRecovered := recovered
        fragsCreated := created }

/-- What a handler may make of packets. -/
abbrev Gathers : List IpPkt → List IpPkt → Prop := Recut Restamp Never Join

/-- The packets a handler is done with. -/
def PacketHandlerBase.done (h : PacketHandlerBase) : List IpPkt := h.settled.map Settled.pkt

open PacketHandler in
/-- A handler that keeps the packets it is given. -/
class Keeper (H : Type) {Env In : outParam Type} [PacketHandler H Env In] where
  held : H → List IpPkt
  held_setBase : ∀ (h : H) (b : PacketHandlerBase), b.pktList = (base h).pktList →
    held (setBase h b) = held h
  kept_ingest : ∀ (h : H) (t : ℚ) (i : In), held (ingest h t i).1 = held h ∧
    (base (ingest h t i).1).settled = (base h).settled
  kept_receive : ∀ (h : H) (e : Env), held (receive h e) = held h ∧
    (base (receive h e)).settled = (base h).settled
  gathers_dropIngressPkt : ∀ (h : H) (p : IpPkt),
    Gathers (p :: (held h ++ (base h).done))
      (held (dropIngressPkt h p) ++ (base (dropIngressPkt h p)).done)
  gathers_push : ∀ (h : H) (b : HarqPkt),
    Gathers (b.pkts ++ (held h ++ (base h).done)) (held (push h b) ++ (base (push h b)).done)
  gathers_drop : ∀ (h : H) (b : HarqPkt),
    Gathers (b.pkts ++ (held h ++ (base h).done)) (held (drop h b) ++ (base (drop h b)).done)
  gathers_release : ∀ h : H, Gathers (held h ++ (base h).done)
    (held (release h).1 ++ (base (release h).1).done)

namespace Keeper

variable {H Env In : Type} [PacketHandler H Env In] [Keeper H]

/-- Everything the handler holds or is done with. -/
def kept (h : H) : List IpPkt := held h ++ (PacketHandler.base h).done

theorem kept_setBase (h : H) (b : PacketHandlerBase)
    (hl : b.pktList = (PacketHandler.base h).pktList)
    (hs : b.settled = (PacketHandler.base h).settled) :
    kept (PacketHandler.setBase h b) = kept h := by
  simp only [kept, held_setBase h b hl, PacketHandler.base_setBase, PacketHandlerBase.done, hs]

@[simp] theorem kept_step (h : H) (t : ℚ) : kept (PacketHandler.step h t) = kept h :=
  kept_setBase h _ rfl rfl

@[simp] theorem kept_recordError (h : H) (x : ℚ) : kept (PacketHandler.recordError h x) = kept h :=
  kept_setBase h _ rfl rfl

end Keeper

/-- Putting the last of a list first. -/
private theorem append_singleton_perm (l m : List IpPkt) (p : IpPkt) :
    (l ++ (m ++ [p])).Perm (p :: (l ++ m)) := by
  rw [← List.append_assoc]
  exact List.perm_append_singleton _ _

/-! ### The simulated handler -/

namespace SimulatedPacketHandler

/-- The fragments in the blocks of a list. -/
def inBlocks (bs : List HarqPkt) : List IpPkt := bs.flatMap HarqPkt.pkts

theorem updatePendingPacket_settled (h : SimulatedPacketHandler) (p : IpPkt) (d : Bool) :
    (h.updatePendingPacket p d).settled = h.settled ++ [⟨p, d⟩] := by
  simp only [updatePendingPacket]
  split <;> rfl

theorem updatePendingPacket_pktList (h : SimulatedPacketHandler) (p : IpPkt) (d : Bool) :
    (h.updatePendingPacket p d).pktList = h.pktList := by
  simp only [updatePendingPacket]
  split <;> rfl

theorem updateAll_settled (d : Bool) (ps : List IpPkt) :
    ∀ h : SimulatedPacketHandler,
      (h.updateAll d ps).settled = h.settled ++ ps.map fun p => ⟨p, d⟩ := by
  induction ps with
  | nil => intro h; simp [updateAll]
  | cons p ps ih =>
      intro h
      have hrest := ih (h.updatePendingPacket p d)
      rw [updatePendingPacket_settled, List.append_assoc] at hrest
      exact hrest

theorem updateAll_pktList (d : Bool) (ps : List IpPkt) (h : SimulatedPacketHandler) :
    (h.updateAll d ps).pktList = h.pktList :=
  updateAll_rule (P := fun g => g.pktList = h.pktList)
    (fun p d hg => (updatePendingPacket_pktList _ p d).trans hg) d ps rfl

private theorem done_updateAll (h : SimulatedPacketHandler) (d : Bool) (ps : List IpPkt) :
    (h.updateAll d ps).done = h.done ++ ps := by
  simp [PacketHandlerBase.done, updateAll_settled, Function.comp_def]

/-- What `release` lets go it is done with, and the rest stays. -/
private theorem releaseLoop_keeps (bs : List HarqPkt) :
    ∀ (h : SimulatedPacketHandler) (r : PacketHandlerBase.ReleaseTotals),
      (inBlocks bs ++ h.done).Perm
        (inBlocks (releaseLoop bs h r).2.1 ++ (releaseLoop bs h r).1.done) := by
  induction bs with
  | nil => intro h r; exact .refl _
  | cons b bs ih =>
      intro h r
      simp only [releaseLoop]
      split
      · refine List.Perm.trans (Multiset.coe_eq_coe.mp ?_) (ih (h.updateAll false b.pkts) _)
        simp only [inBlocks, List.flatMap_cons, done_updateAll, ← Multiset.coe_add]
        abel
      · simpa only [inBlocks, List.flatMap_cons, List.append_assoc] using
          (ih h r).append_left b.pkts

instance : Keeper SimulatedPacketHandler where
  held h := inBlocks h.pktList
  held_setBase h b hb := congrArg inBlocks hb
  kept_ingest h t bits := by
    exact ingest_rule (P := fun g => inBlocks g.pktList = inBlocks h.pktList ∧
      g.settled = h.settled) (fun _ _ _ hg => hg) ⟨rfl, rfl⟩ t bits
  kept_receive _ e := nomatch e
  gathers_dropIngressPkt h p :=
    .perm (by simpa [PacketHandlerBase.done, PacketHandler.dropIngressPkt, dropIngressPkt,
      PacketHandlerBase.settle, PacketHandler.base] using
      (append_singleton_perm (inBlocks h.pktList) (h.settled.map Settled.pkt) p).symm)
  gathers_push h b := by
    refine .perm (Multiset.coe_eq_coe.mp ?_)
    change (↑(b.pkts ++ (inBlocks h.pktList ++ h.done)) : Multiset IpPkt)
      = ↑(inBlocks (h.pktList ++ [{ b with
          tOut := b.tOut + (b.backhaulD + h.gaussDist 0 * b.backhaulDVar) }]) ++ h.done)
    simp only [inBlocks, List.flatMap_append, List.flatMap_singleton, ← Multiset.coe_add]
    abel
  gathers_drop h b := by
    refine .perm (Multiset.coe_eq_coe.mp ?_)
    change (↑(b.pkts ++ (inBlocks h.pktList ++ h.done)) : Multiset IpPkt)
      = ↑(inBlocks (h.updateAll true b.pkts).pktList ++ (h.updateAll true b.pkts).done)
    rw [updateAll_pktList, done_updateAll]
    simp only [← Multiset.coe_add]
    abel
  gathers_release h := .perm (releaseLoop_keeps h.pktList h {})

end SimulatedPacketHandler

/-! ### The captured handler -/

namespace CapturedPacketHandler

/-- The first entry that passes `test`, changed; `none` when there is no such entry. -/
def changeFirst (test : IpPkt → Bool) (change : IpPkt → IpPkt) :
    List IpPkt → Option (List IpPkt)
  | [] => none
  | p :: rest =>
    if test p then some (change p :: rest) else (changeFirst test change rest).map (p :: ·)

theorem changeFirst_some {test : IpPkt → Bool} {change : IpPkt → IpPkt} {ps : List IpPkt} :
    ∀ {out : List IpPkt}, changeFirst test change ps = some out →
      ∃ pre p post, ps = pre ++ p :: post ∧ test p = true ∧ out = pre ++ change p :: post := by
  induction ps with
  | nil => intro out h; cases h
  | cons p rest ih =>
      intro out h
      simp only [changeFirst] at h
      split at h
      · rename_i htest
        obtain rfl := Option.some.inj h
        exact ⟨[], p, rest, rfl, htest, rfl⟩
      · obtain ⟨out', hout', rfl⟩ := Option.map_eq_some_iff.mp h
        obtain ⟨pre, q, post, rfl, htest, rfl⟩ := ih hout'
        exact ⟨p :: pre, q, post, rfl, htest, rfl⟩

theorem changeFirst_none {test : IpPkt → Bool} {change : IpPkt → IpPkt} {ps : List IpPkt}
    (h : changeFirst test change ps = none) : ∀ p ∈ ps, test p = false := by
  induction ps with
  | nil => intro p hp; cases hp
  | cons p rest ih =>
      simp only [changeFirst] at h
      split at h
      · cases h
      · rename_i htest
        rw [List.forall_mem_cons]
        exact ⟨by simpa using htest, ih (Option.map_eq_none_iff.mp h)⟩

private theorem addData_eq (recv : IpPkt) (ps : List IpPkt) :
    addData recv ps = changeFirst (fun p => p.uid = recv.uid) (fun p => { p with
      size := p.size + recv.size
      fragsRecovered := p.fragsRecovered + 1
      fragsCreated := recv.fragsCreated }) ps := by
  induction ps with
  | nil => rfl
  | cons p rest ih => simp only [addData, changeFirst, ih, decide_eq_true_eq]

private theorem removeData_eq (id : UInt32) (bits : ℚ) (ps : List IpPkt) :
    removeData id bits ps = changeFirst (fun p => p.uid = id) (fun p => { p with
      erase := true
      size := p.size + bits }) ps := by
  induction ps with
  | nil => rfl
  | cons p rest ih => simp only [removeData, changeFirst, ih, decide_eq_true_eq]

/-- `add_data` is about one entry, that of the packet. -/
theorem addData_some {recv : IpPkt} {ps out : List IpPkt} (h : addData recv ps = some out) :
    ∃ pre p post, ps = pre ++ p :: post ∧ p.uid = recv.uid ∧ out = pre ++ { p with
      size := p.size + recv.size
      fragsRecovered := p.fragsRecovered + 1
      fragsCreated := recv.fragsCreated } :: post := by
  rw [addData_eq] at h
  obtain ⟨pre, p, post, hps, huid, hout⟩ := changeFirst_some h
  exact ⟨pre, p, post, hps, of_decide_eq_true huid, hout⟩

theorem addData_none {recv : IpPkt} {ps : List IpPkt} (h : addData recv ps = none) :
    recv.uid ∉ ps.map IpPkt.uid := by
  rw [addData_eq] at h
  rintro hmem
  obtain ⟨p, hp, huid⟩ := List.mem_map.mp hmem
  exact absurd huid (of_decide_eq_false (changeFirst_none h p hp))

/-- So is `remove_data`. -/
theorem removeData_some {id : UInt32} {bits : ℚ} {ps out : List IpPkt}
    (h : removeData id bits ps = some out) : ∃ pre p post, ps = pre ++ p :: post ∧ p.uid = id ∧
      out = pre ++ { p with erase := true, size := p.size + bits } :: post := by
  rw [removeData_eq] at h
  obtain ⟨pre, p, post, hps, huid, hout⟩ := changeFirst_some h
  exact ⟨pre, p, post, hps, of_decide_eq_true huid, hout⟩

theorem removeData_none {id : UInt32} {bits : ℚ} {ps : List IpPkt}
    (h : removeData id bits ps = none) : id ∉ ps.map IpPkt.uid := by
  rw [removeData_eq] at h
  rintro hmem
  obtain ⟨p, hp, huid⟩ := List.mem_map.mp hmem
  exact absurd huid (of_decide_eq_false (changeFirst_none h p hp))

/-- A packet joined to an entry somewhere in the list. -/
private theorem gathers_join {recv p q : IpPkt} (pre post : List IpPkt) (h : Join p recv q) :
    Gathers (recv :: (pre ++ p :: post)) (pre ++ q :: post) := by
  have hfront : (recv :: (pre ++ p :: post)).Perm (pre ++ p :: recv :: post) :=
    List.perm_middle.symm.trans (.append_left pre (.swap p recv post))
  exact (Recut.perm hfront).trans (Recut.append_left (.join post h) pre)

/-- `add_data` joins the fragment to the entry of its packet. -/
theorem addData_gathers {recv : IpPkt} {ps out : List IpPkt} (h : addData recv ps = some out) :
    Gathers (recv :: ps) out := by
  obtain ⟨pre, p, post, rfl, huid, rfl⟩ := addData_some h
  exact gathers_join pre post (.mk huid p.erase _ _)

/-- `remove_data` joins the dropped bits to the entry of their packet. -/
theorem removeData_gathers (recv : IpPkt) {ps out : List IpPkt}
    (h : removeData recv.uid recv.size ps = some out) : Gathers (recv :: ps) out := by
  obtain ⟨pre, p, post, rfl, huid, rfl⟩ := removeData_some h
  exact gathers_join pre post (.mk huid true _ _)

theorem pushOne_gathers (tOut ipT : ℚ) (out : List IpPkt) (p : IpPkt) :
    Gathers (p :: out) (pushOne tOut ipT out p) := by
  simp only [pushOne]
  split
  · rename_i out' hout'
    exact (Recut.relabel out (.mk p tOut ipT p.erase p.fragsRecovered)).trans
      (addData_gathers hout')
  · exact (Recut.relabel out (.mk p tOut ipT p.erase (p.fragsRecovered + 1))).trans
      (.perm (List.perm_append_singleton _ _).symm)

theorem dropOne_gathers (tOut ipT : ℚ) (out : List IpPkt) (p : IpPkt) :
    Gathers (p :: out) (dropOne tOut ipT out p) := by
  simp only [dropOne]
  split
  · rename_i out' hout'
    exact (Recut.relabel out (.mk p tOut ipT p.erase p.fragsRecovered)).trans
      (removeData_gathers { p with tOut := tOut, ipT := ipT } hout')
  · exact (Recut.relabel out (.mk p tOut ipT true p.fragsRecovered)).trans
      (.perm (List.perm_append_singleton _ _).symm)

/-- A fold of steps that each gather one packet gathers the whole list. -/
private theorem foldl_gathers {f : List IpPkt → IpPkt → List IpPkt}
    (hf : ∀ out p, Gathers (p :: out) (f out p)) (ps : List IpPkt) :
    ∀ out, Gathers (ps ++ out) (ps.foldl f out) := by
  induction ps with
  | nil => intro out; exact .refl _
  | cons p ps ih =>
      intro out
      refine (Recut.perm ?_).trans ((Recut.append_left (hf out p) ps).trans (ih (f out p)))
      exact List.perm_middle.symm

theorem sortById_perm (ps : List IpPkt) : (sortById ps).Perm ps := List.perm_insertionSort _ _

theorem push_gathers (h : CapturedPacketHandler) (b : HarqPkt) :
    Gathers (b.pkts ++ h.outPkts) (h.push b).outPkts :=
  (foldl_gathers (pushOne_gathers _ _) b.pkts h.outPkts).trans (.perm (sortById_perm _).symm)

theorem drop_gathers (h : CapturedPacketHandler) (b : HarqPkt) :
    Gathers (b.pkts ++ h.outPkts) (h.drop b).outPkts :=
  foldl_gathers (dropOne_gathers _ _) b.pkts h.outPkts

theorem dropIngressPkt_gathers (h : CapturedPacketHandler) (p : IpPkt) :
    Gathers (p :: h.outPkts) (h.dropIngressPkt p).outPkts :=
  (Recut.relabel h.outPkts (.mk p h.currentT p.ipT true p.fragsRecovered)).trans
    (.perm ((List.perm_append_singleton _ _).symm.trans (sortById_perm _).symm))

/-- What `release` lets go it is done with, and the rest stays. -/
theorem releaseLoop_keeps (ps : List IpPkt) :
    ∀ (h : CapturedPacketHandler) (r : PacketHandlerBase.ReleaseTotals),
      (ps ++ h.done).Perm ((releaseLoop ps h r).2.1 ++ (releaseLoop ps h r).1.done) := by
  induction ps with
  | nil => intro h r; exact .refl _
  | cons p ps ih =>
      intro h r
      simp only [releaseLoop]
      split
      · rename_i h' r' hone
        obtain ⟨v, hbase, -⟩ := releaseOne_verdict hone
        have hdone : h'.done = h.done ++ [p] := by
          rw [hbase]
          simp [PacketHandlerBase.done, PacketHandlerBase.settle, PacketHandlerBase.verdict]
        refine List.Perm.trans ?_ (ih h' r')
        rw [hdone]
        exact (append_singleton_perm ps h.done p).symm
      · exact .refl _

/-- The handler's own list is all that changes in what it keeps. -/
private theorem gathers_of_outPkts (new : List IpPkt) {h h' : CapturedPacketHandler}
    (hg : Gathers (new ++ h.outPkts) h'.outPkts) (hs : h'.settled = h.settled) :
    Gathers (new ++ (h.outPkts ++ h.done)) (h'.outPkts ++ h'.done) := by
  have hdone : h'.done = h.done := congrArg (List.map Settled.pkt) hs
  rw [hdone, ← List.append_assoc]
  exact hg.append_right _

instance : Keeper CapturedPacketHandler where
  held h := h.outPkts
  held_setBase _ _ _ := rfl
  kept_ingest h _ clock := by
    exact ingest_rule (P := fun g => g.outPkts = h.outPkts ∧ g.settled = h.settled)
      (fun _ _ hg => hg) ⟨rfl, rfl⟩ clock
  kept_receive _ _ := ⟨rfl, rfl⟩
  gathers_dropIngressPkt h p := gathers_of_outPkts [p] (dropIngressPkt_gathers h p) rfl
  gathers_push h b := gathers_of_outPkts b.pkts (push_gathers h b) rfl
  gathers_drop h b := gathers_of_outPkts b.pkts (drop_gathers h b) rfl
  gathers_release h := .perm (releaseLoop_keeps h.outPkts h {})

end CapturedPacketHandler

end NetworkEmulator
