/-
The PDCP layers of the cell.

The grids and the UEs call the layers they share in every order that the steps allow.  For
the layer of one UE and direction each of these calls is a run of its own events, of a few or
of none (`Layered`).  So is every run of the simulator, with threads or without, and what
all runs of a layer keep holds of every layer of the cell.
-/
import NetworkEmulator.Library.Simulation
import NetworkEmulator.Proofs.Conservation
import NetworkEmulator.Proofs.Ecn
import NetworkEmulator.Proofs.SharedGrid

namespace NetworkEmulator.Emulation

open Simulation

variable {K H Env In : Type}

namespace Ue

@[simp] theorem pdcp_setPhy (u : Ue K H Env In) (tx tx' : Direction) (p : PhyLayer K) :
    (u.setPhy tx p).pdcp tx' = u.pdcp tx' := by cases tx <;> cases tx' <;> rfl

theorem pdcp_setPdcp_of_ne {tx tx' : Direction} (h : tx ≠ tx') (u : Ue K H Env In)
    (q : PdcpLayer H) : (u.setPdcp tx q).pdcp tx' = u.pdcp tx' := by
  cases tx <;> cases tx' <;> first | exact absurd rfl h | rfl

end Ue

variable [PacketHandler H Env In] {fuel : ℕ}

/-- The events that are calls of `handle_pkt`. -/
def IsGrant : Event Env In → Prop
  | .handlePkt .. => True
  | .env _ | .step .. | .release => False

/-- One layer goes through events of its own to become another: calls of `handle_pkt` when a
grid calls, and others when its UE does. -/
abbrev Layered (fuel : ℕ) (P : Event Env In → Prop) (q q' : PdcpLayer H) : Prop :=
  Reaches (PdcpLayer.apply fuel) P q q'

/-- Packets that come in. -/
private theorem layered_receive (q : PdcpLayer H) (es : List Env) :
    Layered fuel (fun e : Event Env In => ¬IsGrant e) q
      { q with packetH := es.foldl PacketHandler.receive q.packetH } := by
  induction es generalizing q with
  | nil => exact .refl q
  | cons e es ih =>
      exact (Reaches.single (d := Event.env e) id rfl).trans
        (ih { q with packetH := PacketHandler.receive q.packetH e })

/-! ### The calls of a UE -/

namespace Ue

variable {M : LogMath} {u u' : Ue K H Env In}

private theorem layered_receiveAt (u : Ue K H Env In) (tx tx' : Direction) (es : List Env) :
    Layered fuel (fun e : Event Env In => ¬IsGrant e) (u.pdcp tx) ((u.receive tx' es).pdcp tx) := by
  by_cases h : tx' = tx
  · subst h
    rw [receive, pdcp_setPdcp]
    exact layered_receive (u.pdcp tx') es
  · rw [receive, pdcp_setPdcp_of_ne h]
    exact .refl _

/-- A layer of the UE that goes through one event. -/
private theorem layered_setPdcp (u : Ue K H Env In) {tx tx' : Direction} {q : PdcpLayer H}
    {P : Event Env In → Prop} {e : Event Env In} (he : P e)
    (h : (u.pdcp tx').apply fuel e = some q) :
    Layered fuel P (u.pdcp tx) ((u.setPdcp tx' q).pdcp tx) := by
  by_cases htx : tx' = tx
  · subst htx
    rw [pdcp_setPdcp]
    exact .single he h
  · rw [pdcp_setPdcp_of_ne htx]
    exact .refl _

/-- **A call of a UE**, for each of its two layers. -/
theorem layered_call {a : UeCall} (h : u.call M fuel a = some u') (tx : Direction) :
    Layered fuel (fun e : Event Env In => ¬IsGrant e) (u.pdcp tx) (u'.pdcp tx) := by
  cases a with
  | pdcpStep tx' =>
      obtain rfl := Option.some.inj h
      exact (u.layered_receiveAt tx tx' _).trans (layered_setPdcp _ (e := Event.step _ _) id rfl)
  | pdcpRelease tx' =>
      obtain rfl := Option.some.inj h
      exact (u.layered_receiveAt tx tx' _).trans (layered_setPdcp _ (e := Event.release) id rfl)
  | updatePos =>
      obtain rfl := Option.some.inj h
      cases tx <;> exact .refl _
  | initPhyUpdateRates =>
      rw [call, initPhyUpdateRates] at h
      split at h
      · cases h
      · obtain rfl := Option.some.inj h
        cases tx <;> exact .refl _
  | estimateChannelState tx' =>
      obtain ⟨p, -, rfl⟩ := Option.map_eq_some_iff.mp h
      rw [pdcp_setPhy]
      exact .refl _
  | nextStep =>
      obtain rfl := Option.some.inj h
      cases tx <;> exact .refl _

/-- A UE that answers a grid. -/
theorem layered_handlePkt {bits effTp : ℚ} {tx' : Direction} {f : ℕ}
    (h : u.handlePkt fuel bits tx' f = some (effTp, u')) (tx : Direction) :
    Layered fuel (fun e : Event Env In => IsGrant e) (u.pdcp tx) (u'.pdcp tx) := by
  obtain ⟨⟨effTp', q⟩, hq, heq⟩ := Option.map_eq_some_iff.mp h
  obtain ⟨-, rfl⟩ := Prod.mk.inj heq
  refine layered_setPdcp u (e := Event.handlePkt bits ((u.phy tx').getMcs f)
    ((u.phy tx').getSinr f) u.distance) trivial ?_
  rw [PdcpLayer.apply, hq]
  rfl

end Ue

/-! ### The calls of the cell -/

namespace Cell

variable [Neg K] [One K] {M : LogMath} {s s' : Cell K H Env In} {tx tx' : Direction} {i : ℕ}

/-- The layer of UE `i` for a direction. -/
def layer (s : Cell K H Env In) (i : ℕ) (tx : Direction) : Option (PdcpLayer H) :=
  s.ueList[i]?.map fun u => u.pdcp tx

/-- The layer of UE `i` for a direction is `q`. -/
private def Has (i : ℕ) (tx : Direction) (s : Cell K H Env In) (q : PdcpLayer H) : Prop :=
  s.layer i tx = some q

/-- A UE that is called by its index. -/
private theorem layered_set {j : ℕ} {u u' : Ue K H Env In} (hu : s.ueList[j]? = some u)
    {P : Event Env In → Prop} (h : Layered fuel P (u.pdcp tx) (u'.pdcp tx))
    (hues : s'.ueList = s.ueList.set j u') {q : PdcpLayer H} (hq : Has i tx s q) :
    ∃ q', Layered fuel P q q' ∧ Has i tx s' q' := by
  obtain ⟨v, hv, rfl⟩ := Option.map_eq_some_iff.mp hq
  by_cases hij : j = i
  · subst hij
    obtain rfl := Option.some.inj (hu.symm.trans hv)
    refine ⟨u'.pdcp tx, h, ?_⟩
    rw [Has, layer, hues, List.getElem?_set_self (List.getElem?_eq_some_iff.mp hu).1]
    rfl
  · refine ⟨v.pdcp tx, .refl _, ?_⟩
    rw [Has, layer, hues, List.getElem?_set_ne hij, hv]
    rfl

/-- Each step of `f` is a run of events of every layer of the cell. -/
def Serves {ε : Type} (fuel : ℕ) (P : Event Env In → Prop)
    (f : Cell K H Env In → ε → Option (Cell K H Env In)) : Prop :=
  ∀ i tx, Simulates f (PdcpLayer.apply fuel) (Has i tx) P

section

variable {ε : Type} {P : Event Env In → Prop}
  {f : Cell K H Env In → ε → Option (Cell K H Env In)} {es : List ε}

/-- A run of such steps, for one layer. -/
theorem Serves.layered (hf : Serves fuel P f) (hrun : Runs.runAll f s es = some s')
    {u u' : Ue K H Env In} (hu : s.ueList[i]? = some u) (hu' : s'.ueList[i]? = some u')
    (tx : Direction) : Layered fuel P (u.pdcp tx) (u'.pdcp tx) := by
  have hstart : Has i tx s (u.pdcp tx) := by
    rw [Has, layer, hu]
    rfl
  obtain ⟨q', hreach, hend⟩ := (hf i tx).run hstart hrun
  rw [Has, layer, hu', Option.map_some] at hend
  obtain rfl := Option.some.inj hend
  exact hreach

/-- A run of such steps, for each layer. -/
theorem Serves.reaches (hf : Serves fuel P f) (hrun : Runs.runAll f s es = some s')
    (hlen : s'.ueList.length = s.ueList.length) (tx : Direction) :
    List.Forall₂ (Layered fuel P) (s.ueList.map fun u => u.pdcp tx)
      (s'.ueList.map fun u => u.pdcp tx) := by
  refine List.forall₂_iff_get.mpr ⟨by simp [hlen], fun i hi hi' => ?_⟩
  rw [List.length_map] at hi hi'
  simpa using hf.layered hrun (List.getElem?_eq_getElem hi) (List.getElem?_eq_getElem hi') tx

/-- **What the events of a layer keep holds of every layer** after such steps. -/
theorem Serves.inv (hf : Serves fuel P f) {I : PdcpLayer H → Prop}
    (hI : ∀ (q : PdcpLayer H) (e : Event Env In) q', I q → q.apply fuel e = some q' → I q')
    (hrun : Runs.runAll f s es = some s') (hlen : s'.ueList.length = s.ueList.length)
    (h : ∀ u ∈ s.ueList, ∀ tx, I (u.pdcp tx)) : ∀ u ∈ s'.ueList, ∀ tx, I (u.pdcp tx) := by
  intro u hu tx
  obtain ⟨i, hi, rfl⟩ := List.getElem_of_mem hu
  have hi' : i < s.ueList.length := by rwa [← hlen]
  have hreach := hf.layered hrun (List.getElem?_eq_getElem hi') (List.getElem?_eq_getElem hi) tx
  exact hreach.inv (fun q e q' _ => hI q e q') (h _ (List.getElem_mem hi') tx)

end

/-- **A call of a UE**, for every layer of the cell. -/
theorem serves_ueCall (j : ℕ) :
    Serves fuel (fun e => ¬IsGrant e) fun (s : Cell K H Env In) a => s.ueCall M fuel j a := by
  intro i tx s q a s' hq hcall
  obtain ⟨u, u', hu, hu', rfl⟩ := ueCall_eq_some.mp hcall
  exact layered_set hu (Ue.layered_call hu' tx) rfl hq

/-- A step of a UE. -/
theorem serves_ueStep :
    Serves fuel (fun e => ¬IsGrant e) fun (s : Cell K H Env In) i => s.ueStep M fuel i :=
  fun i tx _ _ j _ hq hstep => (serves_ueCall j i tx).run hq hstep

variable [LinearOrder K] [Zero K]

/-- **A call of a grid**, for every layer of the cell. -/
theorem serves_gridCall (tx' : Direction) :
    Serves fuel IsGrant fun (s : Cell K H Env In) a => s.gridCall fuel tx' a := by
  intro i tx s q a s' hq hcall
  replace hcall : s.gridCall fuel tx' a = some s' := hcall
  have hsame : ∀ g, ∃ q', Layered fuel (fun e : Event Env In => IsGrant e) q q' ∧
      Has i tx (s.setGrid tx' g) q' := by
    intro g
    refine ⟨q, .refl q, ?_⟩
    rw [Has, layer, ueList_setGrid]
    exact hq
  have hues : ∀ (g : CellGrid K) us, ((s.setGrid tx' g).setUes us).ueList = us := fun _ _ => rfl
  cases a with
  | start =>
      obtain rfl := Option.some.inj hcall
      exact hsame _
  | hasPackets j =>
      rw [gridCall] at hcall
      obtain ⟨u, c, hu, hc, rfl⟩ := withUe_eq_some hcall
      obtain rfl := Option.some.inj hc
      exact layered_set hu (.refl _) (hues _ _) hq
  | getSyms =>
      obtain ⟨g, -, rfl⟩ := Option.map_eq_some_iff.mp hcall
      exact hsame g
  | estimateParams t f j =>
      rw [gridCall] at hcall
      obtain ⟨u, c, hu, hc, rfl⟩ := withUe_eq_some hcall
      rw [considerUe] at hc
      split at hc
      · obtain rfl := Option.some.inj hc
        refine layered_set hu ?_ (hues _ _) hq
        show Layered fuel IsGrant (u.pdcp tx) ((u.setPhy tx' _).pdcp tx)
        rw [Ue.pdcp_setPhy]
        exact .refl _
      · obtain rfl := Option.some.inj hc
        exact layered_set hu (.refl _) (hues _ _) hq
  | handlePacket t f =>
      rw [gridCall] at hcall
      split at hcall
      · obtain ⟨u, c, hu, hc, rfl⟩ := withUe_eq_some hcall
        obtain ⟨⟨effTp, u'⟩, hu', rfl⟩ := Option.map_eq_some_iff.mp hc
        exact layered_set hu (Ue.layered_handlePkt hu' tx) (hues _ _) hq
      · obtain rfl := Option.some.inj hcall
        exact hsame _
  | finish =>
      obtain rfl := Option.some.inj hcall
      exact hsame _

/-- **A step of the cell**, for every layer of it. -/
theorem serves_step :
    Serves fuel (fun _ => True) fun (s : Cell K H Env In) t => s.step M fuel t := by
  intro i tx s q t s' hq hstep
  obtain ⟨s₂, hmac, hues⟩ := Option.bind_eq_some_iff.mp hstep
  obtain ⟨s₁, hdl, hul⟩ := Option.bind_eq_some_iff.mp hmac
  obtain ⟨q₁, hreach₁, hq₁⟩ := (serves_gridCall .dl i tx).run hq hdl
  obtain ⟨q₂, hreach₂, hq₂⟩ := (serves_gridCall .ul i tx).run hq₁ hul
  have hclock : Has i tx (s₂.addCurrentT t) q₂ := by
    obtain ⟨u, hu, rfl⟩ := Option.map_eq_some_iff.mp hq₂
    rw [Has, layer, addCurrentT, List.getElem?_map, hu]
    cases tx <;> rfl
  obtain ⟨q₃, hreach₃, hq₃⟩ := (serves_ueStep i tx).run hclock hues
  exact ⟨q₃, ((hreach₁.trans hreach₂).mono fun _ _ => trivial).trans
    (hreach₃.mono fun _ _ => trivial), hq₃⟩

/-- The UEs of a cell are the same ones all along. -/
theorem exec_length {ts : List ℚ} (hrun : s.exec M fuel ts = some s') :
    s'.ueList.length = s.ueList.length := by
  refine Runs.runAll_inv' (I := fun u => u.ueList.length = s.ueList.length)
    (fun u t u' hu hstep => ?_) rfl hrun
  obtain ⟨v, hmac, hues⟩ := Option.bind_eq_some_iff.mp hstep
  rw [(uesStep_rest hues).1, addCurrentT, List.length_map, macStep_length hmac, hu]

end Cell

/-! ### UEs of both kinds

What no event loses is lost nowhere in the cell, whatever its threads do.
-/

/-- A handler of either kind keeps the packets it is given. -/
instance {H H' Env Env' In In' : Type} [PacketHandler H Env In] [PacketHandler H' Env' In']
    [Keeper H] [Keeper H'] : Keeper (H ⊕ H') where
  held := Sum.elim Keeper.held Keeper.held
  held_setBase h b hb := by
    cases h with
    | inl h => exact Keeper.held_setBase h b hb
    | inr h => exact Keeper.held_setBase h b hb
  kept_ingest h t i := by
    cases h with
    | inl h => exact Keeper.kept_ingest h t i.1
    | inr h => exact Keeper.kept_ingest h t i.2
  kept_receive h e := by
    rcases h with h | h <;> rcases e with e | e
    · exact Keeper.kept_receive h e
    · exact ⟨rfl, rfl⟩
    · exact ⟨rfl, rfl⟩
    · exact Keeper.kept_receive h e
  gathers_dropIngressPkt h p := by
    cases h with
    | inl h => exact Keeper.gathers_dropIngressPkt h p
    | inr h => exact Keeper.gathers_dropIngressPkt h p
  gathers_push h b := by
    cases h with
    | inl h => exact Keeper.gathers_push h b
    | inr h => exact Keeper.gathers_push h b
  gathers_drop h b := by
    cases h with
    | inl h => exact Keeper.gathers_drop h b
    | inr h => exact Keeper.gathers_drop h b
  gathers_release h := by
    cases h with
    | inl h => exact Keeper.gathers_release h
    | inr h => exact Keeper.gathers_release h

/-- Nothing is in a new layer. -/
theorem new_empty (ueType : ℤ) (cfg : PacketHandlerConfig) (verbosity : ℤ) (seeds : Seeds)
    (budgetS : ℚ) :
    ((makePdcpLayer ueType cfg verbosity seeds budgetS).custody none).all = [] ∧
      ((makePdcpLayer ueType cfg verbosity seeds budgetS).custody none).ingested = [] ∧
      ((makePdcpLayer ueType cfg verbosity seeds budgetS).custody none).shelf.dropLog = [] ∧
      ((makePdcpLayer ueType cfg verbosity seeds budgetS).custody none).shelf.dropped = [] := by
  unfold makePdcpLayer makePacketHandler
  split
  · exact ⟨rfl, rfl, rfl, rfl⟩
  · exact ⟨rfl, rfl, rfl, rfl⟩

namespace Emulator

variable {W V : Type} [DecidableEq W] [DecidableEq V] [Fintype W] [Fintype V] [Neg K] [One K]
  [LinearOrder K] [Zero K]

/-- **No bit is lost between the threads.**  In every run of the simulator, over UEs of both
kinds, with threads or without and however they are scheduled, each layer of each UE accounts
for all bits it took in, and its marks are sound. -/
theorem threads_conserve_bits (M : LogMath) (fuel : ℕ)
    (cell : Cell K (SimulatedPacketHandler ⊕ CapturedPacketHandler) (Empty ⊕ NfqPacketMetadata)
      (ℚ × Draws))
    (threading multithreading : Bool) (macIndex ueIndex : ℤ) (xs : List (ℚ × Schedule W V))
    (e : Emulator K (SimulatedPacketHandler ⊕ CapturedPacketHandler) (Empty ⊕ NfqPacketMetadata)
      (ℚ × Draws) W V)
    (hnew : ∀ u ∈ cell.ueList, ∀ tx, ∃ ueType cfg verbosity seeds budgetS,
      u.pdcp tx = makePdcpLayer ueType cfg verbosity seeds budgetS)
    (hrun : (make cell threading multithreading macIndex ueIndex).exec M fuel xs = some e) :
    ∀ u ∈ e.cell.ueList, ∀ tx, (u.pdcp tx).ConservesBits ∧ (u.pdcp tx).EcnSound := by
  have hcell := ((ready_make cell threading multithreading macIndex ueIndex).exec hrun).1
  have hkept : ∀ u ∈ e.cell.ueList, ∀ tx, Accounted ((u.pdcp tx).custody none) ∧
      EcnInv ((u.pdcp tx).custody none) := by
    refine Cell.serves_step.inv
      (I := fun q => Accounted (q.custody none) ∧ EcnInv (q.custody none))
      (fun q ev q' h hev => ⟨PdcpLayer.apply_inv Accounted.move hev h.1,
        PdcpLayer.apply_inv EcnInv.move hev h.2⟩) hcell (Cell.exec_length hcell) fun u hu tx => ?_
    obtain ⟨ueType, cfg, verbosity, seeds, budgetS, hq⟩ := hnew u hu tx
    obtain ⟨hall, hing, hlog, hdropped⟩ := new_empty ueType cfg verbosity seeds budgetS
    rw [hq]
    exact ⟨⟨by simp [hall], by simp [hall, hing]⟩,
      ⟨by simp [hall], by simp [hlog], by simp [hdropped]⟩⟩
  intro u hu tx
  obtain ⟨haccounted, hecn⟩ := hkept u hu tx
  exact ⟨.of_accounted haccounted, PdcpLayer.ecnSound_of_inv hecn⟩

/-- A UE with a layer like this in each direction: 300 bits are generated in each step, and a
packet of 50 bytes is captured before the first. -/
def mixedUe {H : Type} (id : ℤ) (layer : PdcpLayer H) :
    Ue ℚ H (Empty ⊕ NfqPacketMetadata) (ℚ × Draws) where
  pdcpDl := layer
  pdcpUl := layer
  phyDl := { smallPhy .dl with id := id }
  phyUl := { smallPhy .ul with id := id }
  distance := 10
  phyO2i := .outdoor
  phyCqiPeriod := 1
  phyRiPeriod := 1
  phyDopplerF := 0
  world n :=
    { arrivals := fun _ => if n = 0 then [.inr ⟨50, 7, .ect0, []⟩] else []
      late := fun _ => []
      input := fun _ => (300, fun _ => 0)
      distance := 10
      macroFading := 0 }

/-- A `SIM_UE` and another, as a cell sees their layers. -/
def mixedCell {H : Type}
    (see : PdcpLayer (SimulatedPacketHandler ⊕ CapturedPacketHandler) → PdcpLayer H) :
    Cell ℚ H (Empty ⊕ NfqPacketMetadata) (ℚ × Draws) where
  gridDl := smallGrid .dl
  gridUl := smallGrid .ul
  ueList :=
    [mixedUe 0 (see (makePdcpLayer simUe { pktSize := 300 } 0 {} (35 / 100))),
      mixedUe 1 (see (makePdcpLayer 0 { pktSize := 300 } 0 {} (35 / 100)))]

/-- Two steps, in which two workers take turns at the grids and at the UEs. -/
def mixedRun : List (ℚ × Schedule (Fin 2) (Fin 2)) :=
  [(1 / 1000, ⟨turns 11, turns 12⟩), (2 / 1000, ⟨turns 11, turns 12⟩)]

/-- The captured packet is sent, and the generated ones wait. -/
theorem threads_conserve_bits_mixed :
    ∃ e, (make (mixedCell id) true true 0 0).exec roughMath 5 mixedRun = some e ∧
      e.cell.gridDl.lastStepMetrics.effectiveBits = 400 ∧
      e.cell.ueList.map (fun u => u.pdcpDl.ipBuffer.pktList.length) = [2, 0] ∧
      ∀ u ∈ e.cell.ueList, ∀ tx, (u.pdcp tx).ConservesBits ∧ (u.pdcp tx).EcnSound := by
  have hnew : ∀ u ∈ (mixedCell id).ueList, ∀ tx, ∃ ueType cfg verbosity seeds budgetS,
      u.pdcp tx = makePdcpLayer ueType cfg verbosity seeds budgetS := by
    intro u hu tx
    rcases List.mem_pair.mp hu with rfl | rfl
    · cases tx <;> exact ⟨_, _, _, _, _, rfl⟩
    · cases tx <;> exact ⟨_, _, _, _, _, rfl⟩
  refine Runs.exists_of_view (fun e => (e.cell.gridDl.lastStepMetrics.effectiveBits,
    e.cell.ueList.map fun u => u.pdcpDl.ipBuffer.pktList.length)) (x := (400, [2, 0]))
    (by decide +kernel) fun e he hview => ?_
  exact ⟨congrArg Prod.fst hview, congrArg Prod.snd hview,
    threads_conserve_bits roughMath 5 (mixedCell id) true true 0 0 mixedRun e hnew he⟩

end Emulator

end NetworkEmulator.Emulation
