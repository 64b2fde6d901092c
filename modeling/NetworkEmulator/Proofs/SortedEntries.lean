/-
Whether the release list is a sorted set.

`release` scans `out_pkts` from its head, which makes sense when the entries stand in the
order of their ids.  `push` and `drop_ingress_pkt` sort the list before they return, and
`release` only takes from its front; `drop` puts the entries it makes at the end and does
not sort.  So the list stays sorted exactly as long as every dropped packet that has no
entry yet is younger than all entries there are, which `Follows` says of the ids.
-/
import NetworkEmulator.Proofs.Observe
import NetworkEmulator.Proofs.Wedge

namespace NetworkEmulator

namespace CapturedPacketHandler

/-- **One entry for each packet, in the order of the ids.** -/
def SortedSet (ps : List IpPkt) : Prop := (ps.map IpPkt.uid).Pairwise (· < ·)

instance (ps : List IpPkt) : Decidable (SortedSet ps) :=
  inferInstanceAs (Decidable ((ps.map IpPkt.uid).Pairwise (· < ·)))

/-- Each id of the second list is one of the first, or comes after all of those so far. -/
def Follows : List UInt32 → List UInt32 → Prop
  | _, [] => True
  | ids, u :: us =>
    (u ∈ ids ∧ Follows ids us) ∨ (u ∉ ids ∧ (∀ v ∈ ids, v < u) ∧ Follows (ids ++ [u]) us)

instance : ∀ ids us, Decidable (Follows ids us)
  | _, [] => isTrue trivial
  | ids, u :: us =>
    have : Decidable (Follows ids us) := instDecidableFollows ids us
    have : Decidable (Follows (ids ++ [u]) us) := instDecidableFollows _ us
    -- not by trying every id there is
    have : Decidable (∀ v ∈ ids, v < u) := List.decidableBAll _ ids
    inferInstanceAs (Decidable (_ ∨ _))

end CapturedPacketHandler

open CapturedPacketHandler

/-- What keeps the release list sorted when the call is made: a refused packet has no
entry, and dropped packets follow the entries. -/
def HandlerCall.Fits (h : CapturedPacketHandler) : HandlerCall → Prop
  | .dropIngressPkt p => p.uid ∉ h.outPkts.map IpPkt.uid
  | .drop b => Follows (h.outPkts.map IpPkt.uid) (b.pkts.map IpPkt.uid)
  | _ => True

instance (h : CapturedPacketHandler) : ∀ c : HandlerCall, Decidable (c.Fits h)
  | .dropIngressPkt p => inferInstanceAs (Decidable (p.uid ∉ h.outPkts.map IpPkt.uid))
  | .drop b => inferInstanceAs
      (Decidable (Follows (h.outPkts.map IpPkt.uid) (b.pkts.map IpPkt.uid)))
  | .push _ => isTrue trivial
  | .release => isTrue trivial

namespace CapturedPacketHandler

/-! ### What `drop` does to the ids -/

/-- The ids of the entries once packets with the ids `us` have been dropped. -/
def withDropped : List UInt32 → List UInt32 → List UInt32
  | ids, [] => ids
  | ids, u :: us => withDropped (if u ∈ ids then ids else ids ++ [u]) us

theorem prefix_withDropped (us : List UInt32) : ∀ ids, ids <+: withDropped ids us := by
  induction us with
  | nil => intro ids; exact List.prefix_rfl
  | cons u us ih =>
      intro ids
      rw [withDropped]
      refine List.IsPrefix.trans ?_ (ih _)
      split
      · exact List.prefix_rfl
      · exact List.prefix_append _ _

/-- One id goes to the end of the list. -/
theorem pairwise_concat_iff {ids : List UInt32} {u : UInt32} (h : ids.Pairwise (· < ·)) :
    (ids ++ [u]).Pairwise (· < ·) ↔ ∀ v ∈ ids, v < u := by
  simp [List.pairwise_append, h]

/-- What is out of order stays out of order, so each id has to follow when it comes. -/
theorem withDropped_sorted_iff (us : List UInt32) : ∀ {ids : List UInt32},
    ids.Pairwise (· < ·) → ((withDropped ids us).Pairwise (· < ·) ↔ Follows ids us) := by
  induction us with
  | nil => intro ids h; exact iff_of_true h trivial
  | cons u us ih =>
      intro ids h
      rw [withDropped, Follows]
      by_cases hu : u ∈ ids
      · rw [if_pos hu, ih h]
        exact ⟨fun hrest => Or.inl ⟨hu, hrest⟩,
          fun hor => hor.elim And.right fun hno => absurd hu hno.1⟩
      · rw [if_neg hu]
        constructor
        · intro hsorted
          have hnext := hsorted.sublist (prefix_withDropped us _).sublist
          exact Or.inr ⟨hu, (pairwise_concat_iff h).mp hnext, (ih hnext).mp hsorted⟩
        · rintro (⟨hmem, -⟩ | ⟨-, hlast, hrest⟩)
          · exact absurd hmem hu
          · exact (ih ((pairwise_concat_iff h).mpr hlast)).mpr hrest

theorem removeData_mem {id : UInt32} {bits : ℚ} {ps out : List IpPkt}
    (h : removeData id bits ps = some out) : id ∈ ps.map IpPkt.uid := by
  obtain ⟨pre, p, post, rfl, rfl, -⟩ := removeData_some h
  exact List.mem_map_of_mem (List.mem_append_right _ (List.mem_cons_self ..))

theorem dropOne_uids (tOut ipT : ℚ) (ps : List IpPkt) (p : IpPkt) :
    (dropOne tOut ipT ps p).map IpPkt.uid
      = if p.uid ∈ ps.map IpPkt.uid then ps.map IpPkt.uid else ps.map IpPkt.uid ++ [p.uid] := by
  simp only [dropOne]
  split
  · rename_i out hout
    rw [if_pos (removeData_mem hout), removeData_uids hout]
  · rename_i hnone
    rw [if_neg (removeData_none hnone), List.map_append]
    rfl

theorem drop_uids (h : CapturedPacketHandler) (b : HarqPkt) : (h.drop b).outPkts.map IpPkt.uid
    = withDropped (h.outPkts.map IpPkt.uid) (b.pkts.map IpPkt.uid) := by
  simp only [drop]
  generalize h.outPkts = ps
  induction b.pkts generalizing ps with
  | nil => rfl
  | cons p rest ih =>
      rw [List.foldl_cons, ih, dropOne_uids, List.map_cons, withDropped]

/-! ### What each call does to the order -/

/-- Sorting makes a sorted set of entries no two of which are of one packet. -/
theorem SortedSet.sort {ps : List IpPkt} (h : OneEntryEach ps) : SortedSet (sortById ps) := by
  have hle : ((sortById ps).map IpPkt.uid).Pairwise (· ≤ ·) := by
    rw [List.pairwise_map]
    exact List.pairwise_insertionSort _ ps
  have hne : ((sortById ps).map IpPkt.uid).Pairwise (· ≠ ·) := h.sort
  exact (hle.and hne).imp fun ⟨hle, hne⟩ => UInt32.lt_of_le_of_ne hle hne

theorem SortedSet.one {ps : List IpPkt} (h : SortedSet ps) : OneEntryEach ps :=
  List.Pairwise.imp UInt32.ne_of_lt h

/-- **A call leaves a sorted set sorted exactly when it fits.** -/
theorem SortedSet.run_iff {h : CapturedPacketHandler} (hs : SortedSet h.outPkts)
    (c : HandlerCall) : SortedSet (c.run h).outPkts ↔ c.Fits h := by
  cases c with
  | push b =>
      refine iff_of_true ?_ trivial
      exact SortedSet.sort (OneEntryEach.foldl (fun _ p hps => hps.pushOne _ _ p) b.pkts _ hs.one)
  | drop b =>
      show ((h.drop b).outPkts.map IpPkt.uid).Pairwise (· < ·) ↔ _
      rw [drop_uids]
      exact withDropped_sorted_iff _ hs
  | dropIngressPkt p =>
      constructor
      · intro hsorted
        have hone := (sortById_perm
          (h.outPkts ++ [{ p with erase := true, tOut := h.currentT }])).map IpPkt.uid
        have hnodup := hone.nodup_iff.mp hsorted.one
        rw [List.map_append, List.nodup_append] at hnodup
        intro hmem
        exact hnodup.2.2 _ hmem _ (List.mem_singleton.mpr rfl) rfl
      · intro hnew
        have hone := hs.one.concat (p := { p with erase := true, tOut := h.currentT }) hnew
        exact SortedSet.sort hone
  | release =>
      refine iff_of_true ?_ trivial
      obtain ⟨gone, hout, -⟩ := release_releases h
      rw [SortedSet, hout, List.map_append] at hs
      exact (List.pairwise_append.mp hs).2.1

/-! ### Runs -/

/-- What the record of a run says of the order. -/
structure OrderLogged (o : Observed CapturedPacketHandler) : Prop where
  iff : (∀ x ∈ o.calls, SortedSet (x.2.run x.1).outPkts) ↔ ∀ x ∈ o.calls, x.2.Fits x.1
  sorted : (∀ x ∈ o.calls, x.2.Fits x.1) → SortedSet o.handler.outPkts

/-- What is not on record leaves the entries alone. -/
theorem OrderLogged.same {o o' : Observed CapturedPacketHandler} (h : OrderLogged o)
    (hcalls : o'.calls = o.calls) (hout : o'.handler.outPkts = o.handler.outPkts) :
    OrderLogged o' := by
  refine ⟨?_, ?_⟩
  · rw [hcalls]
    exact h.iff
  · rw [hcalls, hout]
    exact h.sorted

/-- One more call. -/
theorem OrderLogged.call {o : Observed CapturedPacketHandler} (h : OrderLogged o)
    (c : HandlerCall) : OrderLogged (o.call c) := by
  have hforall (P : CapturedPacketHandler × HandlerCall → Prop) :
      (∀ x ∈ (o.call c).calls, P x) ↔ (∀ x ∈ o.calls, P x) ∧ P (o.handler, c) := by
    simp only [Observed.call, List.forall_mem_append, List.forall_mem_singleton]
  refine ⟨?_, ?_⟩
  · rw [hforall, hforall]
    constructor
    · rintro ⟨hbefore, hnow⟩
      have hfits := h.iff.mp hbefore
      exact ⟨hfits, ((h.sorted hfits).run_iff c).mp hnow⟩
    · rintro ⟨hfits, hnow⟩
      exact ⟨h.iff.mpr hfits, ((h.sorted hfits).run_iff c).mpr hnow⟩
  · rw [hforall]
    rintro ⟨hfits, hnow⟩
    exact ((h.sorted hfits).run_iff c).mpr hnow

theorem OrderLogged.move {k : MoveKind} {c c' : Custody (Observed CapturedPacketHandler)}
    (hm : Move c k c') (h : OrderLogged c.packetH) : OrderLogged c'.packetH := by
  have hpopped {p : IpPkt} {o : Observed CapturedPacketHandler}
      (hpop : PacketHandler.popIngressPkt c.packetH = some (p, o)) : OrderLogged o := by
    obtain ⟨hplain, hcalls⟩ := Observed.popIngressPkt_some hpop
    exact h.same hcalls (popIngressPkt_held hplain)
  cases hm with
  | ingest t clock =>
      exact h.same rfl (Keeper.kept_ingest c.packetH.handler t clock).1
  | enter hpop => exact hpopped hpop
  | refuse hpop => exact (hpopped hpop).call _
  | takeDropped => exact OrderLogged.call (h.same rfl rfl) _
  | drop => exact h.call _
  | push => exact h.call _
  | release => exact h.call _
  | receive | tick | recordError => exact h.same rfl rfl
  | fetch | unstore | store | discard => exact h

/-- What the record of a run over distinct captures says of the entries. -/
structure EntriesLogged (c : Custody (Observed CapturedPacketHandler)) : Prop where
  entries : PdcpLayer.EntriesInv c.erase
  one : (c.erase.ingested.map IpPkt.uid).Nodup →
    ∀ x ∈ c.packetH.calls, OneEntryEach (x.2.run x.1).outPkts
  fits : (c.erase.ingested.map IpPkt.uid).Nodup →
    ∀ x ∈ c.packetH.calls, (∀ b, x.2 ≠ .drop b) → x.2.Fits x.1

theorem EntriesLogged.move {k : MoveKind} {c c' : Custody (Observed CapturedPacketHandler)}
    (hm : Move c k c') (h : EntriesLogged c) : EntriesLogged c' := by
  have hentries := h.entries.move hm.erase
  have hold (hnd : (c'.erase.ingested.map IpPkt.uid).Nodup) :
      (c.erase.ingested.map IpPkt.uid).Nodup := by
    obtain ⟨new, lost, hf⟩ := hm.erase.carries (G := ⊤) (fun _ => trivial) (fun _ _ => trivial)
    rw [hf.ingested, List.map_append] at hnd
    exact hnd.of_append_left
  have hquiet (hcalls : c'.packetH.calls = c.packetH.calls) : EntriesLogged c' := by
    refine ⟨hentries, fun hnd => ?_, fun hnd => ?_⟩
    · rw [hcalls]
      exact h.one (hold hnd)
    · rw [hcalls]
      exact h.fits (hold hnd)
  -- the entries after the call are those of the custody after the move
  have hcall {o : Observed CapturedPacketHandler} {call : HandlerCall}
      (hcalls : o.calls = c.packetH.calls) (hnow : c'.packetH = o.call call)
      (hfits : (c.erase.ingested.map IpPkt.uid).Nodup → (∀ b, call ≠ .drop b) →
        call.Fits o.handler) : EntriesLogged c' := by
    refine ⟨hentries, fun hnd => ?_, fun hnd => ?_⟩
    · rw [hnow, Observed.call, hcalls, List.forall_mem_append, List.forall_mem_singleton]
      refine ⟨h.one (hold hnd), ?_⟩
      have hone : OneEntryEach c'.packetH.handler.outPkts := hentries.one hnd
      rw [hnow] at hone
      exact hone
    · rw [hnow, Observed.call, hcalls, List.forall_mem_append, List.forall_mem_singleton]
      exact ⟨h.fits (hold hnd), hfits (hold hnd)⟩
  cases hm with
  | enter hpop => exact hquiet (Observed.popIngressPkt_some hpop).2
  | @refuse p o hpop =>
      obtain ⟨hplain, hcalls⟩ := Observed.popIngressPkt_some hpop
      refine hcall hcalls rfl fun hnd _ => ?_
      have hmem : p ∈ c.packetH.handler.ingressPkts :=
        (popIngressPkt_spec hplain).1 ▸ List.mem_cons_self ..
      have hnew := ingress_uid (h.entries.captured.tokens hnd) hnd h.entries.intake hmem
      have hout : o.handler.outPkts = c.packetH.handler.outPkts := popIngressPkt_held hplain
      show p.uid ∉ o.handler.outPkts.map IpPkt.uid
      rw [hout]
      exact hnew
  | takeDropped => exact hcall rfl rfl fun _ hno => absurd rfl (hno _)
  | drop => exact hcall rfl rfl fun _ hno => absurd rfl (hno _)
  | push => exact hcall rfl rfl fun _ _ => trivial
  | release => exact hcall rfl rfl fun _ _ => trivial
  | receive | tick | recordError | ingest | fetch | unstore | store | discard => exact hquiet rfl

end CapturedPacketHandler

namespace PdcpLayer

/-- **When the release list stays a sorted set.**  In every run the list is sorted after
each call on the handler exactly when each call fits.  When the captured ids are
distinct, it never has two entries of one packet, and only a `drop` can fail to fit. -/
theorem release_list_sorted_iff (cfg : PacketHandlerConfig) (verbosity : ℤ) (seeds : Seeds)
    (budgetS : ℚ) (fuel : ℕ) (es : List (Event NfqPacketMetadata Draws))
    (s : PdcpLayer (Observed CapturedPacketHandler))
    (hrun : (captured cfg verbosity seeds budgetS).observe.exec fuel es = some s) :
    ((∀ x ∈ s.packetH.calls, SortedSet (x.2.run x.1).outPkts) ↔
      ∀ x ∈ s.packetH.calls, x.2.Fits x.1) ∧
    (s.erase.capturedIds.Nodup → ∀ x ∈ s.packetH.calls,
      OneEntryEach (x.2.run x.1).outPkts ∧ ((∀ b, x.2 ≠ .drop b) → x.2.Fits x.1)) := by
  have horder : OrderLogged s.packetH := by
    refine exec_inv (I := fun c => OrderLogged c.packetH) OrderLogged.move ?_ hrun
    refine ⟨iff_of_true ?_ ?_, fun _ => List.Pairwise.nil⟩ <;>
      · intro x hx
        cases hx
  have hlogged : EntriesLogged (s.custody none) := by
    refine exec_inv EntriesLogged.move ⟨?_, ?_, ?_⟩ hrun
    · exact entriesInv_captured cfg verbosity seeds budgetS
    · intro _ x hx
      cases hx
    · intro _ x hx
      cases hx
  refine ⟨horder.iff, fun hids x hx => ?_⟩
  have hnd := ingested_nodup (s := s.erase) hlogged.entries.captured hids
  exact ⟨hlogged.one hnd x hx, hlogged.fits hnd x hx⟩

/-- The L4S packet goes first, and the packet it overtook is dropped as expired: its
entry comes after that of the younger one. -/
def overtakenEvents : List (Event NfqPacketMetadata Draws) :=
  [.env ⟨1000, 1, .notEct, []⟩, .env ⟨1000, 2, .ect1, []⟩, .step (1 / 2000) fun _ => 1 / 2000,
    .handlePkt 8000 5 0 0, .step 1 fun _ => 1]

theorem release_list_out_of_order : ∃ s : PdcpLayer (Observed CapturedPacketHandler),
    (captured { l4sC := { enabled := true } } 0 {} (35 / 100)).observe.exec 5 overtakenEvents
        = some s ∧
      s.erase.capturedIds = [1, 2] ∧ s.packetH.handler.outPkts.map IpPkt.uid = [2, 1] ∧
      ¬ ∀ x ∈ s.packetH.calls, SortedSet (x.2.run x.1).outPkts := by
  refine Runs.exists_of_view (fun s => decide (s.erase.capturedIds = [1, 2] ∧
      s.packetH.handler.outPkts.map IpPkt.uid = [2, 1] ∧
      ¬ ∀ x ∈ s.packetH.calls, SortedSet (x.2.run x.1).outPkts))
    (x := true) (by decide +kernel) fun s hs hview => of_decide_eq_true hview

/-- Without the AQM the older packet is sent first, and the other one expires. -/
theorem release_list_sorted_plain : ∃ s : PdcpLayer (Observed CapturedPacketHandler),
    (captured {} 0 {} (35 / 100)).observe.exec 5 overtakenEvents = some s ∧
      s.packetH.calls.length = 2 ∧
      ∀ x ∈ s.packetH.calls, SortedSet (x.2.run x.1).outPkts := by
  refine Runs.exists_of_view (fun s => decide (s.packetH.calls.length = 2 ∧
      ∀ x ∈ s.packetH.calls, x.2.Fits x.1))
    (x := true) (by decide +kernel) fun s hs hview => ?_
  obtain ⟨hlen, hfits⟩ := of_decide_eq_true hview
  exact ⟨hlen, (release_list_sorted_iff {} 0 {} (35 / 100) 5 _ s hs).1.mpr hfits⟩

end PdcpLayer

end NetworkEmulator
