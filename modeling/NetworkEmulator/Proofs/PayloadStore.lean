/-
The payloads that wait for a verdict.

The netfilter callback stores a payload under the id of its packet, and three branches
of `verdict` erase it again, far down the pipeline; a fourth finds none and falls back.
`Mirrors caps c` says that the store holds the payloads of the captures `caps` that have
no verdict yet, and that every verdict was carried out with the payload of its own
packet.  A capture keeps it as long as its id is new, and a verdict as long as it is the
first for a captured packet, which the one verdict per packet gives.
-/
import NetworkEmulator.Proofs.LayerRules
import NetworkEmulator.Proofs.Verdicts

namespace NetworkEmulator

/-- How netfilter is told of a verdict on a packet of `caps`: a packet marked CE goes
back with its own payload rewritten. -/
inductive CarriedOut (caps : List NfqPacketMetadata) :
    UInt32 × PacketCaptureAction → NfRelease → Prop
  | drop (u : UInt32) : CarriedOut caps (u, .drop) ⟨u, false, none⟩
  | accept (u : UInt32) : CarriedOut caps (u, .accept) ⟨u, true, none⟩
  | acceptCe {m : NfqPacketMetadata} (h : m ∈ caps) : CarriedOut caps (m.pktId, .acceptCe)
      ⟨m.pktId, true, some (applyIpv4Ecn m.payload Ecn.ce.code)⟩

theorem CarriedOut.mono {caps caps' : List NfqPacketMetadata} {v : UInt32 × PacketCaptureAction}
    {r : NfRelease} (hsub : caps ⊆ caps') (h : CarriedOut caps v r) : CarriedOut caps' v r := by
  cases h with
  | drop u => exact .drop u
  | accept u => exact .accept u
  | acceptCe h => exact .acceptCe (hsub h)

/-- **The payload store holds what waits for a verdict**, and the verdicts were carried
out with the payloads of their packets. -/
structure Mirrors (caps : List NfqPacketMetadata) (c : PktCapture) : Prop where
  keys : ∀ u, (c.payloads u).isSome = true ↔
    u ∈ caps.map NfqPacketMetadata.pktId ∧ u ∉ c.verdicts.map Prod.fst
  own : ∀ {u stored}, c.payloads u = some stored →
    ∃ m ∈ caps, m.pktId = u ∧ stored = ⟨m.payload, m.ecn⟩
  released : List.Forall₂ (CarriedOut caps) c.verdicts c.nfReleased

namespace Mirrors

variable {caps : List NfqPacketMetadata} {c : PktCapture}

/-- A packet with a new id is captured. -/
theorem capture (h : Mirrors caps c) {m : NfqPacketMetadata}
    (hverdict : m.pktId ∉ c.verdicts.map Prod.fst) :
    Mirrors (caps ++ [m]) (c.handleCapture m) := by
  refine ⟨fun u => ?_, ?_, ?_⟩
  · show (Function.update c.payloads m.pktId _ u).isSome = true ↔
      u ∈ (caps ++ [m]).map NfqPacketMetadata.pktId ∧ u ∉ c.verdicts.map Prod.fst
    by_cases hu : u = m.pktId
    · subst hu
      rw [Function.update_self]
      simp [hverdict]
    · rw [Function.update_of_ne hu, h.keys u]
      simp [hu]
  · intro u stored hstored
    change Function.update c.payloads m.pktId _ u = some stored at hstored
    by_cases hu : u = m.pktId
    · subst hu
      rw [Function.update_self] at hstored
      exact ⟨m, by simp, rfl, (Option.some.inj hstored).symm⟩
    · rw [Function.update_of_ne hu] at hstored
      obtain ⟨m', hm', hid, hs⟩ := h.own hstored
      exact ⟨m', List.mem_append_left _ hm', hid, hs⟩
  · exact h.released.imp fun _ _ hr => hr.mono (List.subset_append_left _ _)

/-- A packet is handed back and its payload forgotten. -/
private theorem releaseTo (h : Mirrors caps c) {u : UInt32} {a : PacketCaptureAction}
    {r : NfRelease} (hid : r.pktId = u) (hr : CarriedOut caps (u, a) r) :
    Mirrors caps (PktCapture.releaseTo { c with verdicts := c.verdicts ++ [(u, a)] } r) := by
  refine ⟨fun x => ?_, ?_, ?_⟩
  · show (Function.update c.payloads r.pktId none x).isSome = true ↔
      x ∈ caps.map NfqPacketMetadata.pktId ∧ x ∉ (c.verdicts ++ [(u, a)]).map Prod.fst
    rw [hid]
    by_cases hx : x = u
    · subst hx
      rw [Function.update_self]
      simp
    · rw [Function.update_of_ne hx, h.keys x]
      simp [hx]
  · intro x stored hstored
    change Function.update c.payloads r.pktId none x = some stored at hstored
    rw [hid] at hstored
    by_cases hx : x = u
    · subst hx
      rw [Function.update_self] at hstored
      cases hstored
    · rw [Function.update_of_ne hx] at hstored
      exact h.own hstored
  · exact List.rel_append h.released (.cons hr .nil)

/-- **The first verdict on a captured packet finds its payload.** -/
theorem verdict (h : Mirrors caps c) {u : UInt32} (a : PacketCaptureAction)
    (hcap : u ∈ caps.map NfqPacketMetadata.pktId) (hfirst : u ∉ c.verdicts.map Prod.fst) :
    Mirrors caps (c.verdict u a) := by
  cases a with
  | accept => exact h.releaseTo rfl (.accept u)
  | drop => exact h.releaseTo rfl (.drop u)
  | acceptCe =>
      obtain ⟨stored, hstored⟩ := Option.isSome_iff_exists.mp ((h.keys u).mpr ⟨hcap, hfirst⟩)
      obtain ⟨m, hm, rfl, rfl⟩ := h.own hstored
      simp only [PktCapture.verdict, hstored]
      exact h.releaseTo rfl (.acceptCe hm)

end Mirrors

/-! ### What the layer's other calls leave alone -/

/-- The store and the verdicts are as they were. -/
structure SameStore (c c' : PktCapture) : Prop where
  captureLog : c'.captureLog = c.captureLog
  payloads : c'.payloads = c.payloads
  verdicts : c'.verdicts = c.verdicts
  nfReleased : c'.nfReleased = c.nfReleased

theorem SameStore.trans {c c' c'' : PktCapture} (h : SameStore c c') (h' : SameStore c' c'') :
    SameStore c c'' :=
  ⟨h'.captureLog.trans h.captureLog, h'.payloads.trans h.payloads, h'.verdicts.trans h.verdicts,
    h'.nfReleased.trans h.nfReleased⟩

theorem Mirrors.same {caps : List NfqPacketMetadata} {c c' : PktCapture} (h : Mirrors caps c)
    (hs : SameStore c c') : Mirrors caps c' := by
  refine ⟨fun u => ?_, ?_, ?_⟩
  · rw [hs.payloads, hs.verdicts]
    exact h.keys u
  · rw [hs.payloads]
    exact h.own
  · rw [hs.verdicts, hs.nfReleased]
    exact h.released

namespace CapturedPacketHandler

private theorem ingest_store (h : CapturedPacketHandler) (clock : Draws) :
    SameStore h.pktCptr (h.ingest clock).1.pktCptr :=
  ingest_rule (P := fun g => SameStore h.pktCptr g.pktCptr)
    (fun _ _ hg => hg.trans ⟨rfl, rfl, rfl, rfl⟩) ⟨rfl, rfl, rfl, rfl⟩ clock

/-- Only captures and `release` touch the store. -/
theorem store_kept (c : PktCapture) :
    PdcpLayer.HandlerKeeps fun h : CapturedPacketHandler => SameStore c h.pktCptr where
  step _ h := h
  ingest _ clock h := h.trans (ingest_store _ clock)
  pop {h p h'} hs hpop := by
    obtain ⟨rest, -, rfl⟩ := PacketHandler.popIngressPkt_eq_some hpop
    exact hs
  refuse _ h := h
  recordError _ h := h
  drop _ h := h
  push _ h := h

/-! ### `release` -/

private theorem releaseLoop_verdicts (ps : List IpPkt) (h : CapturedPacketHandler)
    (r : PacketHandlerBase.ReleaseTotals) :
    h.pktCptr.verdicts <+: (releaseLoop ps h r).1.pktCptr.verdicts ∧
      (releaseLoop ps h r).1.pktCptr.captureLog = h.pktCptr.captureLog := by
  refine releaseLoop_rule (P := fun g => h.pktCptr.verdicts <+: g.pktCptr.verdicts ∧
    g.pktCptr.captureLog = h.pktCptr.captureLog) (fun hone hg => ?_) ps r ⟨List.prefix_rfl, rfl⟩
  obtain ⟨v, -, hc, -⟩ := releaseOne_verdict hone
  obtain ⟨hverdicts, hlog⟩ := hg
  rw [hc, PktCapture.verdict_verdicts, PktCapture.verdict_captureLog]
  exact ⟨hverdicts.trans (List.prefix_append _ _), hlog⟩

/-- The verdicts of one `release`, when each is the first for a captured packet. -/
theorem releaseLoop_mirrors {caps : List NfqPacketMetadata} (ps : List IpPkt) :
    ∀ (h : CapturedPacketHandler) (r : PacketHandlerBase.ReleaseTotals),
      Mirrors caps h.pktCptr →
      ((releaseLoop ps h r).1.pktCptr.verdicts.map Prod.fst).Nodup →
      (releaseLoop ps h r).1.pktCptr.verdicts.map Prod.fst
        ⊆ caps.map NfqPacketMetadata.pktId →
      Mirrors caps (releaseLoop ps h r).1.pktCptr := by
  induction ps with
  | nil => intro h r hm _ _; exact hm
  | cons p ps ih =>
      intro h r hm
      simp only [releaseLoop]
      split
      · rename_i h' r' hone
        intro hnodup hsub
        refine ih h' r' ?_ hnodup hsub
        obtain ⟨v, -, hc, -⟩ := releaseOne_verdict hone
        -- what `release` has answered in the end bounds what it has answered so far
        have hlater := (releaseLoop_verdicts ps h' r').1.map Prod.fst
        rw [hc, PktCapture.verdict_verdicts, List.map_append] at hlater
        have honce := hnodup.sublist hlater.sublist
        rw [hc]
        refine hm.verdict _ (hsub (hlater.subset (by simp))) ?_
        have hapart := (List.nodup_append.mp honce).2.2
        intro hu
        exact hapart _ hu _ (by simp) rfl
      · intro _ _
        exact hm

end CapturedPacketHandler

/-! ### Runs -/

/-- The packets captured among some events. -/
def captures (es : List (Event NfqPacketMetadata Draws)) : List NfqPacketMetadata :=
  es.filterMap fun
    | .env m => some m
    | _ => none

namespace PdcpLayer

/-- The capture log of a run has the ids of the packets captured. -/
structure Stored (es : List (Event NfqPacketMetadata Draws))
    (s : PdcpLayer CapturedPacketHandler) : Prop where
  ids : s.capturedIds = (captures es).map NfqPacketMetadata.pktId
  mirrors : Mirrors (captures es) s.packetH.pktCptr

private theorem Stored.same {es : List (Event NfqPacketMetadata Draws)}
    {s s' : PdcpLayer CapturedPacketHandler} (h : Stored es s)
    (hs : SameStore s.packetH.pktCptr s'.packetH.pktCptr) : Stored es s' := by
  refine ⟨?_, h.mirrors.same hs⟩
  rw [capturedIds, hs.captureLog]
  exact h.ids

private theorem captures_concat (es : List (Event NfqPacketMetadata Draws))
    (e : Event NfqPacketMetadata Draws) : captures (es ++ [e]) = captures es ++ captures [e] :=
  List.filterMap_append

/-- One more event. -/
private theorem Stored.apply {es : List (Event NfqPacketMetadata Draws)}
    {e : Event NfqPacketMetadata Draws} {fuel : ℕ} {s s' : PdcpLayer CapturedPacketHandler}
    (h : Stored es s) (hinv : CapturedInv (s.custody none)) (hinv' : CapturedInv (s'.custody none))
    (hids : ((captures (es ++ [e])).map NfqPacketMetadata.pktId).Nodup)
    (hrun : s.apply fuel e = some s') : Stored (es ++ [e]) s' := by
  rw [captures_concat, List.map_append] at hids
  have hbefore : s.capturedIds.Nodup := by
    rw [h.ids]
    exact hids.of_append_left
  obtain ⟨hnodup, hsub, -⟩ := verdictIds_once hinv hbefore
  -- an event that captures nothing
  have hquiet (hnone : captures [e] = [])
      (hs : SameStore s.packetH.pktCptr s'.packetH.pktCptr) : Stored (es ++ [e]) s' := by
    obtain ⟨hid, hm⟩ := h.same hs
    refine ⟨?_, ?_⟩ <;> rw [captures_concat, hnone, List.append_nil]
    · exact hid
    · exact hm
  cases e with
  | env m =>
      obtain rfl := Option.some.inj hrun
      have hnew : m.pktId ∉ (captures es).map NfqPacketMetadata.pktId := by
        intro hm
        exact (List.nodup_append.mp hids).2.2 _ hm _ (List.mem_singleton.mpr rfl) rfl
      refine ⟨?_, ?_⟩
      · show (s.packetH.pktCptr.captureLog ++ [_]).map CapturedPacketInfo.pktId = _
        rw [captures_concat, List.map_append, List.map_append, ← h.ids]
        rfl
      · rw [captures_concat]
        refine h.mirrors.capture fun hu => hnew ?_
        rw [← h.ids]
        exact hsub hu
  | step t clock =>
      obtain rfl := Option.some.inj hrun
      exact hquiet rfl ((CapturedPacketHandler.store_kept s.packetH.pktCptr).layer_step t clock
        ⟨rfl, rfl, rfl, rfl⟩)
  | handlePkt bits mcs sinr distance =>
      obtain ⟨⟨sent, s₁⟩, hs, rfl⟩ := Option.map_eq_some_iff.mp hrun
      exact hquiet rfl ((CapturedPacketHandler.store_kept s.packetH.pktCptr).handlePkt
        ⟨rfl, rfl, rfl, rfl⟩ hs)
  | release =>
      obtain rfl := Option.some.inj hrun
      have hlog : s.release.1.capturedIds = s.capturedIds :=
        congrArg (List.map CapturedPacketInfo.pktId)
          (CapturedPacketHandler.releaseLoop_verdicts s.packetH.outPkts s.packetH {}).2
      have hafter : s.release.1.capturedIds.Nodup := by
        rw [hlog]
        exact hbefore
      obtain ⟨hnodup', hsub', -⟩ := verdictIds_once hinv' hafter
      rw [hlog, h.ids] at hsub'
      refine ⟨?_, ?_⟩ <;> rw [captures_concat, show captures [_] = [] from rfl, List.append_nil]
      · rw [hlog]
        exact h.ids
      · exact CapturedPacketHandler.releaseLoop_mirrors s.packetH.outPkts s.packetH {} h.mirrors
          hnodup' hsub'

/-- The store of every run over distinct captures. -/
theorem exec_stored {cfg : PacketHandlerConfig} {verbosity : ℤ} {seeds : Seeds} {budgetS : ℚ}
    {fuel : ℕ} (es : List (Event NfqPacketMetadata Draws)) :
    ∀ {s : PdcpLayer CapturedPacketHandler},
      (captured cfg verbosity seeds budgetS).exec fuel es = some s →
      ((captures es).map NfqPacketMetadata.pktId).Nodup → Stored es s := by
  induction es using List.reverseRecOn with
  | nil =>
      intro s hrun _
      obtain rfl := Option.some.inj hrun
      refine ⟨rfl, fun u => ?_, ?_, .nil⟩
      · show (none : Option StoredPayload).isSome = true ↔ u ∈ [] ∧ _
        simp
      · intro u stored hstored
        cases hstored
  | append_singleton es e ih =>
      intro s hrun hids
      obtain ⟨s₁, hrun₁, happly⟩ := Runs.runAll_concat.mp hrun
      have hids₁ : ((captures es).map NfqPacketMetadata.pktId).Nodup := by
        rw [captures_concat, List.map_append] at hids
        exact hids.of_append_left
      exact (ih hrun₁ hids₁).apply (exec_capturedInv hrun₁) (exec_capturedInv hrun) hids happly

/-- **The payload store mirrors the packets that wait for a verdict**, after every run in
which the captured packets have distinct ids. -/
theorem payload_store_mirrors (cfg : PacketHandlerConfig) (verbosity : ℤ) (seeds : Seeds)
    (budgetS : ℚ) (fuel : ℕ) (es : List (Event NfqPacketMetadata Draws))
    (s : PdcpLayer CapturedPacketHandler)
    (hrun : (captured cfg verbosity seeds budgetS).exec fuel es = some s)
    (hids : ((captures es).map NfqPacketMetadata.pktId).Nodup) :
    Mirrors (captures es) s.packetH.pktCptr :=
  (exec_stored es hrun hids).mirrors

/-- Two packets are captured; the first is marked by the AQM and sent, the second waits. -/
def markedEvents : List (Event NfqPacketMetadata Draws) :=
  [.env ⟨1000, 7, .ect1, List.replicate 20 69⟩, .step (1 / 1000) fun _ => 1 / 1000,
    .env ⟨500, 8, .ect1, [2]⟩, .step (2 / 100) fun _ => 2 / 100, .handlePkt 8000 5 0 0, .release]

theorem payload_store_mirrors_marked :
    ∃ s : PdcpLayer CapturedPacketHandler,
      (captured { l4sC := { enabled := true } } 0 {} (35 / 100)).exec 5 markedEvents = some s ∧
      s.packetH.pktCptr.verdicts = [(7, .acceptCe)] ∧
      ((captures markedEvents).map NfqPacketMetadata.pktId).Nodup ∧
      Mirrors (captures markedEvents) s.packetH.pktCptr := by
  have hids : ((captures markedEvents).map NfqPacketMetadata.pktId).Nodup := by decide
  refine Runs.exists_of_view (fun s => s.packetH.pktCptr.verdicts) (x := [(7, .acceptCe)])
    (by decide +kernel) fun s hs hview => ?_
  exact ⟨hview, hids,
    payload_store_mirrors { l4sC := { enabled := true } } 0 {} (35 / 100) 5 _ s hs hids⟩

end PdcpLayer

end NetworkEmulator
