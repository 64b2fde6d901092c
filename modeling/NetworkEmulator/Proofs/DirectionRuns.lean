/-
A whole run of the simulator, as one direction sees it.

`MacGrid.exec` takes a grid with its UEs through events: what happens to the PDCP layers, new
channel states, steps of the grid.  A step of the simulator is for each direction a round of
these (`Round`): the step of its grid, then what the UEs do to their layers, then the channel
state they estimate.  So the two grids over shared UEs, with their threads, refine two grids
that never meet, and what is proved of the runs of one direction is true of the simulator.
-/
import NetworkEmulator.Proofs.ChannelRuns
import NetworkEmulator.Proofs.SharedMetrics
import NetworkEmulator.Proofs.Throughput

namespace NetworkEmulator

open Runs Simulation

/-! ### The mean throughput of a UE -/

namespace PdcpLayer

variable {H Env In : Type} [PacketHandler H Env In] [Keeper H] {fuel : ℕ} {q q' : PdcpLayer H}

/-- The packets of a layer have sizes, and its blocks and its mean are sound. -/
structure Paid (q : PdcpLayer H) : Prop where
  sizes : ∀ p ∈ (q.custody none).all, 0 ≤ p.size ∧ 0 ≤ p.originalSize
  pays : Pays none q

theorem Paid.apply [Payer H] (h : q.Paid) {e : Event Env In} (he : q.apply fuel e = some q') :
    q'.Paid := by
  obtain ⟨hsizes, hpays⟩ := apply_rule paid_rules ⟨h.sizes, h.pays⟩ he
  exact ⟨hsizes, hpays⟩

end PdcpLayer

namespace Emulation

/-- Nothing is owed in a new layer. -/
theorem makePdcpLayer_paid (ueType : ℤ) (cfg : PacketHandlerConfig) (verbosity : ℤ)
    (seeds : Seeds) (budgetS : ℚ) :
    (makePdcpLayer ueType cfg verbosity seeds budgetS).Paid := by
  refine ⟨fun p hp => ?_, ?_⟩
  · rw [(new_empty ueType cfg verbosity seeds budgetS).1] at hp
    exact absurd hp List.not_mem_nil
  · unfold makePdcpLayer makePacketHandler
    split
    · exact ⟨by simp, fun b hb => absurd hb List.not_mem_nil,
        fun b hb => absurd hb List.not_mem_nil, MeanHandler.nonneg_new⟩
    · exact ⟨by simp, fun b hb => absurd hb List.not_mem_nil,
        fun b hb => absurd hb List.not_mem_nil, MeanHandler.nonneg_new⟩

variable {K H Env In : Type} [PacketHandler H Env In] [Keeper H] {fuel : ℕ}

namespace Ue

variable {M : LogMath} {u u' : Ue K H Env In} {tx : Direction}

/-- **No UE tells its channel a negative throughput.** -/
theorem getAvgTp_nonneg (h : (u.pdcp tx).Paid) : 0 ≤ u.getAvgTp tx := by
  have htotal : 0 ≤ (PacketHandler.base (u.pdcp tx).packetH).tpMean.getTotal := h.pays.mean.total
  rw [getAvgTp, bit2Mbit, s2Ms]
  positivity

/-! ### The calls of a UE -/

omit [Keeper H] in
/-- Only `estimate_channel_state` changes a physical layer. -/
theorem call_phy {a : UeCall} (ha : a ≠ .estimateChannelState tx) (h : u.call M fuel a = some u') :
    u'.phy tx = u.phy tx ∧ u'.currentT = u.currentT := by
  cases a with
  | pdcpStep tx' =>
      obtain rfl := Option.some.inj h
      cases tx <;> cases tx' <;> exact ⟨rfl, rfl⟩
  | pdcpRelease tx' =>
      obtain rfl := Option.some.inj h
      cases tx <;> cases tx' <;> exact ⟨rfl, rfl⟩
  | updatePos =>
      obtain rfl := Option.some.inj h
      cases tx <;> exact ⟨rfl, rfl⟩
  | initPhyUpdateRates =>
      rw [call, initPhyUpdateRates] at h
      split at h
      · cases h
      · obtain rfl := Option.some.inj h
        cases tx <;> exact ⟨rfl, rfl⟩
  | estimateChannelState tx' =>
      obtain ⟨p, -, rfl⟩ := Option.map_eq_some_iff.mp h
      have hne : tx' ≠ tx := by
        intro heq
        exact ha (heq ▸ rfl)
      cases tx <;> cases tx' <;> first | exact absurd rfl hne | exact ⟨rfl, rfl⟩
  | nextStep =>
      obtain rfl := Option.some.inj h
      cases tx <;> exact ⟨rfl, rfl⟩

omit [Keeper H] in
private theorem calls_phy {as : List UeCall} (has : UeCall.estimateChannelState tx ∉ as)
    (h : runAll (call M fuel) u as = some u') :
    u'.phy tx = u.phy tx ∧ u'.currentT = u.currentT := by
  induction as generalizing u with
  | nil =>
      obtain rfl := Option.some.inj h
      exact ⟨rfl, rfl⟩
  | cons a as ih =>
      obtain ⟨u₁, hcall, hrun⟩ := runAll_cons.mp h
      obtain ⟨hne, hrest⟩ := not_or.mp fun hmem => has (List.mem_cons.mpr hmem)
      obtain ⟨hphy, ht⟩ := call_phy (Ne.symm hne) hcall
      obtain ⟨hphy', ht'⟩ := ih hrest hrun
      exact ⟨hphy'.trans hphy, ht'.trans ht⟩

/-- Each direction is estimated once in a step. -/
private theorem calls_split (tx : Direction) : ∃ as bs,
    Ue.calls = as ++ .estimateChannelState tx :: bs ∧
      UeCall.estimateChannelState tx ∉ as ∧ UeCall.estimateChannelState tx ∉ bs := by
  cases tx with
  | dl => exact ⟨Ue.calls.take 6, Ue.calls.drop 7, rfl, by decide, by decide⟩
  | ul => exact ⟨Ue.calls.take 7, Ue.calls.drop 8, rfl, by decide, by decide⟩

variable [Payer H]

/-- **A step of a UE**, for what the scheduler knows of it in a direction: one estimation of
the channel. -/
theorem step_metrics (hpaid : (u.pdcp tx).Paid) (h : u.step M fuel = some u') :
    ∃ y : ChannelInput ℚ, y.currentT = u.currentT ∧
      (u'.phy tx).toPhyMetrics = (u.phy tx).toPhyMetrics.estimateChannelState y := by
  obtain ⟨as, bs, hcalls, has, hbs⟩ := calls_split tx
  rw [Ue.step, hcalls, runAll_append, Option.bind_eq_some_iff] at h
  obtain ⟨u₁, hfirst, h⟩ := h
  obtain ⟨u₂, hcall, hlast⟩ := runAll_cons.mp h
  obtain ⟨hphy₁, ht₁⟩ := calls_phy has hfirst
  have hpaid₁ : (u₁.pdcp tx).Paid := by
    refine runAll_inv' (I := fun v : Ue K H Env In => (v.pdcp tx).Paid)
      (fun v a v' hv ha => ?_) hpaid hfirst
    exact (layered_call ha tx).inv (fun q e q' _ hq he => hq.apply he) hv
  obtain ⟨p, hp, rfl⟩ := Option.map_eq_some_iff.mp hcall
  have hphy₂ : (u₁.setPhy tx p).phy tx = p := by cases tx <;> rfl
  refine ⟨
    { oldestT := (u₁.pdcp tx).getOldestTimestamp
      avgTp := u₁.getAvgTp tx
      avgTp_nonneg := getAvgTp_nonneg hpaid₁
      currentT := u₁.currentT
      updateCqi := (u₁.phy tx).due (u₁.phy tx).cqiPeriod
      tp := fun f => (p.withRank (u₁.phy tx)).rateOf f }, ht₁, ?_⟩
  rw [(calls_phy hbs hlast).1, hphy₂, ← hphy₁]
  exact (PhyLayer.called hp).metrics _ rfl rfl rfl rfl fun _ _ => rfl

end Ue

end Emulation

/-! ### The rounds of a direction -/

/-- What a step of the simulator is for one direction: what its grid finds, what the UEs do to
their layers after it, and the channel states they estimate. -/
structure Round (Env In : Type) where
  input : GridInput
  layers : List (ℕ × Event Env In)
  channel : ℕ → ChannelInput ℚ

/-- Its events, in order. -/
def Round.events {Env In : Type} (r : Round Env In) : List (MacGrid.GridEvent Env In) :=
  .step r.input :: r.layers.map (fun e => .pdcp e.1 e.2) ++ [.channel r.channel]

namespace MacGrid

variable {K H Env In : Type} [Neg K] [One K] [LinearOrder K] [Zero K] [PacketHandler H Env In]
  {fuel : ℕ} {P : Event Env In → Prop}

/-- Events of the layers alone. -/
private theorem layer_reaches {g : MacGrid K H} {i : ℕ} {q q' : PdcpLayer H}
    (hq : g.pdcps[i]? = some q) (h : Emulation.Layered fuel P q q') :
    Reaches (fun g e => apply fuel g (.pdcp (Prod.fst e) (Prod.snd e))) (fun e => P e.2) g
      { g with pdcps := g.pdcps.set i q' } := by
  obtain ⟨es, hes, hrun⟩ := h
  induction es generalizing q g with
  | nil =>
      obtain rfl := Option.some.inj hrun
      have hset : g.pdcps.set i q = g.pdcps := by
        obtain ⟨hi, rfl⟩ := List.getElem?_eq_some_iff.mp hq
        exact List.set_getElem_self hi
      rw [hset]
      exact .refl g
  | cons e es ih =>
      obtain ⟨q₁, hstep, hrun⟩ := runAll_cons.mp hrun
      have hone : apply fuel g (.pdcp i e) = some { g with pdcps := g.pdcps.set i q₁ } := by
        rw [apply, hq]
        simp only [hstep, Option.map_some]
      have hset : (g.pdcps.set i q₁)[i]? = some q₁ :=
        List.getElem?_set_self (List.getElem?_eq_some_iff.mp hq).1
      have hrest := ih (g := { g with pdcps := g.pdcps.set i q₁ }) hset
        (fun d hd => hes d (List.mem_cons_of_mem _ hd)) hrun
      rw [List.set_set] at hrest
      exact (Reaches.single (d := (i, e)) (hes e (List.mem_cons_self ..)) hone).trans hrest

/-- **The layers of all UEs**, one after the other. -/
theorem layers_reach {g : MacGrid K H} {qs : List (PdcpLayer H)}
    (h : List.Forall₂ (Emulation.Layered fuel P) g.pdcps qs) :
    Reaches (fun g e => apply fuel g (.pdcp (Prod.fst e) (Prod.snd e))) (fun e => P e.2) g
      { g with pdcps := qs } := by
  suffices haux : ∀ {ps qs : List (PdcpLayer H)}, List.Forall₂ (Emulation.Layered fuel P) ps qs →
      ∀ (pre : List (PdcpLayer H)) (g : MacGrid K H), g.pdcps = pre ++ ps →
        Reaches (fun g e => apply fuel g (.pdcp (Prod.fst e) (Prod.snd e))) (fun e => P e.2) g
          { g with pdcps := pre ++ qs } from haux h [] g rfl
  intro ps qs hall
  induction hall with
  | nil =>
      intro pre g hg
      rw [← hg]
      exact .refl g
  | cons hfirst hrest ih =>
      rename_i p q ps qs
      intro pre g hg
      have hq : g.pdcps[pre.length]? = some p := by
        rw [hg, List.getElem?_append_right le_rfl, Nat.sub_self]
        rfl
      have hset : g.pdcps.set pre.length q = (pre ++ [q]) ++ ps := by
        rw [hg, List.set_append_right _ _ le_rfl, Nat.sub_self, List.set_cons_zero,
          List.append_assoc, List.singleton_append]
      have hnext := ih (pre ++ [q]) { g with pdcps := g.pdcps.set pre.length q } hset
      rw [List.append_assoc, List.singleton_append] at hnext
      exact (layer_reaches hq hfirst).trans hnext

end MacGrid

/-! ### The rounds of the cell -/

namespace Emulation.Cell

variable {K H Env In : Type} [Neg K] [One K] [PacketHandler H Env In] {M : LogMath} {fuel : ℕ}
  {s s' : Cell K H Env In}

/-- The calls of one UE. -/
private theorem ueCalls_eq_some {i : ℕ} {as : List UeCall} {u : Ue K H Env In}
    (hu : s.ueList[i]? = some u) (h : runAll (ueCall M fuel i) s as = some s') :
    ∃ u', runAll (Ue.call M fuel) u as = some u' ∧
      s' = { s with ueList := s.ueList.set i u' } := by
  induction as generalizing s u with
  | nil =>
      obtain rfl := Option.some.inj h
      obtain ⟨hi, rfl⟩ := List.getElem?_eq_some_iff.mp hu
      refine ⟨_, rfl, ?_⟩
      rw [List.set_getElem_self hi]
  | cons a as ih =>
      obtain ⟨s₁, hcall, hrun⟩ := runAll_cons.mp h
      obtain ⟨v, u₁, hv, hu₁, rfl⟩ := ueCall_eq_some.mp hcall
      obtain rfl := Option.some.inj (hu.symm.trans hv)
      have hset : (s.ueList.set i u₁)[i]? = some u₁ :=
        List.getElem?_set_self (List.getElem?_eq_some_iff.mp hu).1
      obtain ⟨u', hu', rfl⟩ := ih (s := { s with ueList := s.ueList.set i u₁ }) hset hrun
      refine ⟨u', runAll_cons.mpr ⟨u₁, hu₁, hu'⟩, ?_⟩
      rw [List.set_set]

/-- The UEs of some indices take a step each, and the others stay. -/
private theorem ueSteps_get {is : List ℕ} (hnodup : is.Nodup)
    (h : runAll (ueStep M fuel) s is = some s') {i : ℕ} {u : Ue K H Env In}
    (hu : s.ueList[i]? = some u) :
    (i ∉ is → s'.ueList[i]? = some u) ∧
      (i ∈ is → ∃ u', s'.ueList[i]? = some u' ∧ u.step M fuel = some u') := by
  induction is generalizing s u with
  | nil =>
      obtain rfl := Option.some.inj h
      exact ⟨fun _ => hu, fun hi => absurd hi List.not_mem_nil⟩
  | cons j is ih =>
      obtain ⟨s₁, hstep, hrun⟩ := runAll_cons.mp h
      obtain ⟨hj, hrest⟩ := List.nodup_cons.mp hnodup
      by_cases hij : i = j
      · subst hij
        obtain ⟨u', hu', rfl⟩ := ueCalls_eq_some hu hstep
        have hset : (s.ueList.set i u')[i]? = some u' :=
          List.getElem?_set_self (List.getElem?_eq_some_iff.mp hu).1
        refine ⟨fun hi => absurd (List.mem_cons_self ..) hi, fun _ => ?_⟩
        exact ⟨u', (ih (s := { s with ueList := s.ueList.set i u' }) hrest hrun hset).1 hj, hu'⟩
      · have hsame : s₁.ueList[i]? = some u := by
          refine (runAll_inv' (I := fun v : Cell K H Env In => v.ueList[i]? = some u)
            (fun v a v' hv hcall => ?_) hu hstep)
          obtain ⟨w, w', -, -, rfl⟩ := ueCall_eq_some.mp hcall
          exact (List.getElem?_set_ne (Ne.symm hij)).trans hv
        obtain ⟨hout, hin⟩ := ih hrest hrun hsame
        refine ⟨fun hi => hout fun hmem => hi (List.mem_cons_of_mem _ hmem), fun hi => hin ?_⟩
        exact (List.mem_cons.mp hi).resolve_left hij

/-- **The UEs of a step**: each takes a step of its own. -/
theorem uesStep_forall (h : s.uesStep M fuel = some s') :
    List.Forall₂ (fun u u' => u.step M fuel = some u') s.ueList s'.ueList := by
  have hlength := (uesStep_rest h).1
  refine List.forall₂_iff_get.mpr ⟨hlength.symm, fun i hi hi' => ?_⟩
  obtain ⟨u', hu', hstep⟩ := (ueSteps_get List.nodup_range h (List.getElem?_eq_getElem hi)).2
    (List.mem_range.mpr hi)
  obtain rfl := Option.some.inj ((List.getElem?_eq_getElem hi').symm.trans hu')
  exact hstep

variable [LinearOrder K] [Zero K] [Keeper H] [Payer H] {tx : Direction} {g : MacGrid K H}

/-- The layers of the cell are sound. -/
def Paid (s : Cell K H Env In) : Prop := ∀ u ∈ s.ueList, ∀ tx, (u.pdcp tx).Paid

omit [LinearOrder K] [Zero K] in
/-- What the scheduler knows of UE `i` after a step of the UEs. -/
private theorem uesStep_metrics (hpaid : s.Paid) {t : ℚ}
    (hstep : (s.addCurrentT t).uesStep M fuel = some s') (tx : Direction) (i : ℕ) :
    ∃ y : ChannelInput ℚ, y.currentT = t ∧ ∀ u u', s.ueList[i]? = some u →
      s'.ueList[i]? = some u' →
        (u'.phy tx).toPhyMetrics = (u.phy tx).toPhyMetrics.estimateChannelState y := by
  cases hi : s.ueList[i]? with
  | none =>
      refine ⟨⟨0, 0, le_rfl, t, false, fun _ => 0⟩, rfl, fun u u' hu => ?_⟩
      cases hu
  | some u =>
      have hclock : (s.addCurrentT t).ueList[i]? = some { u with currentT := t } := by
        rw [addCurrentT, List.getElem?_map, hi]
        rfl
      have hlength := (uesStep_rest hstep).1
      obtain ⟨hlt, -⟩ := List.getElem?_eq_some_iff.mp hclock
      obtain ⟨u', hu', hue⟩ :=
        (ueSteps_get List.nodup_range hstep hclock).2 (List.mem_range.mpr hlt)
      have hpaid' : (({ u with currentT := t } : Ue K H Env In).pdcp tx).Paid := by
        have := hpaid u (List.mem_of_getElem? hi) tx
        cases tx <;> exact this
      obtain ⟨y, hy, hmetrics⟩ := Ue.step_metrics hpaid' hue
      refine ⟨y, hy, fun v v' hv hv' => ?_⟩
      obtain rfl := Option.some.inj hv
      obtain rfl := Option.some.inj (hu'.symm.trans hv')
      rw [hmetrics]
      cases tx <;> rfl

/-- **The UEs of a step, for one direction.** -/
theorem Shows.uesStep (h : s.Shows tx g) (hpaid : s.Paid) {t : ℚ}
    (hstep : (s.addCurrentT t).uesStep M fuel = some s') :
    ∃ (layers : List (ℕ × Event Env In)) (x : ℕ → ChannelInput ℚ) (g' : MacGrid K H),
      (∀ e ∈ layers, ¬IsGrant e.2) ∧ (∀ i, (x i).currentT = t) ∧
        g.exec fuel (layers.map (fun e => .pdcp e.1 e.2) ++ [.channel x]) = some g' ∧
        s'.Shows tx g' := by
  obtain ⟨hlength, hgrid⟩ := uesStep_rest hstep
  have hclock : ((s.addCurrentT t).ueList.map fun u => u.pdcp tx) = g.pdcps := by
    rw [h.pdcps, addCurrentT, List.map_map]
    cases tx <;> rfl
  have hreach := serves_ueStep.reaches hstep hlength tx
  rw [hclock] at hreach
  obtain ⟨layers, hlayers, hrun⟩ := MacGrid.layers_reach hreach
  rw [← runAll_comp (f := MacGrid.apply fuel) fun e : ℕ × Event Env In => .pdcp e.1 e.2] at hrun
  choose x hx hmetrics using uesStep_metrics hpaid hstep tx
  let g₁ : MacGrid K H := { g with pdcps := s'.ueList.map fun u => u.pdcp tx }
  refine ⟨layers, x, { g₁ with toRbGrid := g₁.toRbGrid.estimateChannelState x }, hlayers, hx,
    ?_, ?_⟩
  · rw [MacGrid.exec, runAll_append, hrun]
    rfl
  · refine ⟨?_, ?_, rfl⟩
    · have hsame : s'.grid tx = s.grid tx := by
        rw [hgrid tx]
        cases tx <;> rfl
      rw [hsame]
      exact ⟨h.grid.nTimeRbg, h.grid.nFreqRbg, h.grid.blocks, h.grid.capacity, h.grid.metrics⟩
    · show g.ueList.mapIdx (fun i u => u.estimateChannelState (x i)) = _
      rw [addCurrentT, List.length_map] at hlength
      refine List.ext_getElem (by simp [h.ues, hlength]) fun i hi hi' => ?_
      rw [List.length_map] at hi'
      have hi'' : i < s.ueList.length := hlength ▸ hi'
      have hmetric := hmetrics i _ _ (List.getElem?_eq_getElem hi'') (List.getElem?_eq_getElem hi')
      simp [h.ues, hmetric]

omit [PacketHandler H Env In] [LinearOrder K] [Zero K] [Keeper H] [Payer H] in
private theorem Shows.of_side (h : s.Shows tx g) (hside : s'.side tx = s.side tx) :
    s'.Shows tx g := by
  have hgrid : s'.grid tx = s.grid tx := congrArg Prod.fst hside
  have hues : s'.ueList.map (fun u => u.side tx) = s.ueList.map fun u => u.side tx :=
    congrArg Prod.snd hside
  have hphys := congrArg (List.map fun p => p.1.toPhyMetrics) hues
  have hpdcps := congrArg (List.map Prod.snd) hues
  rw [List.map_map, List.map_map] at hphys hpdcps
  exact ⟨hgrid ▸ h.grid, h.ues.trans hphys.symm, h.pdcps.trans hpdcps.symm⟩

omit [Keeper H] [Payer H] in
/-- The grids of a step, for one direction. -/
private theorem Shows.macStep (h : s.Shows tx g) (hstep : s.macStep fuel = some s') :
    ∃ x g', g.step fuel x = some g' ∧ s'.Shows tx g' := by
  obtain ⟨s₁, hdl, hul⟩ := Option.bind_eq_some_iff.mp hstep
  cases tx with
  | dl =>
      obtain ⟨g', hg, hshows⟩ := h.gridStep hdl
      exact ⟨_, g', hg, hshows.of_side ((gridCalls_rest hul).2 .dl (by decide))⟩
  | ul =>
      obtain ⟨g', hg, hshows⟩ := (h.of_side ((gridCalls_rest hdl).2 .ul (by decide))).gridStep hul
      exact ⟨_, g', hg, hshows⟩

theorem Paid.macStep (h : s.Paid) (hstep : s.macStep fuel = some s') : s'.Paid := by
  obtain ⟨s₁, hdl, hul⟩ := Option.bind_eq_some_iff.mp hstep
  have hkeep : ∀ (q : PdcpLayer H) (e : Event Env In) q', q.Paid → q.apply fuel e = some q' →
      q'.Paid := fun q e q' hq he => hq.apply he
  have hpaid₁ : s₁.Paid := (serves_gridCall .dl).inv hkeep hdl (gridCalls_rest hdl).1 h
  exact (serves_gridCall .ul).inv hkeep hul (gridCalls_rest hul).1 hpaid₁

/-- **A step of the simulator is a round of each direction.** -/
theorem Shows.step (h : s.Shows tx g) (hpaid : s.Paid) {t : ℚ} (hstep : s.step M fuel t = some s') :
    ∃ (r : Round Env In) (g' : MacGrid K H), (∀ e ∈ r.layers, ¬IsGrant e.2) ∧
      (∀ i, (r.channel i).currentT = t) ∧ g.exec fuel r.events = some g' ∧ s'.Shows tx g' := by
  obtain ⟨s₁, hmac, hues⟩ := Option.bind_eq_some_iff.mp hstep
  obtain ⟨input, g₁, hg₁, hshows₁⟩ := h.macStep hmac
  obtain ⟨layers, x, g', hlayers, hx, hrun, hshows⟩ := hshows₁.uesStep (hpaid.macStep hmac) hues
  exact ⟨⟨input, layers, x⟩, g', hlayers, hx, runAll_cons.mpr ⟨g₁, hg₁, hrun⟩, hshows⟩

theorem Paid.step (h : s.Paid) {t : ℚ} (hstep : s.step M fuel t = some s') : s'.Paid := by
  obtain ⟨s₁, hmac, hues⟩ := Option.bind_eq_some_iff.mp hstep
  have hclock : (s₁.addCurrentT t).Paid := by
    intro u hu tx
    obtain ⟨v, hv, rfl⟩ := List.mem_map.mp hu
    have hlayer := h.macStep hmac v hv tx
    cases tx <;> exact hlayer
  exact serves_ueStep.inv (fun q e q' hq he => hq.apply he) hues (uesStep_rest hues).1 hclock

/-- A run of the simulator, round by round. -/
theorem Shows.exec (h : s.Shows tx g) (hpaid : s.Paid) {ts : List ℚ}
    (hrun : s.exec M fuel ts = some s') :
    ∃ (rs : List (Round Env In)) (g' : MacGrid K H),
      List.Forall₂ (fun t r => ∀ i, (r.channel i).currentT = t) ts rs ∧
        (∀ r ∈ rs, ∀ e ∈ r.layers, ¬IsGrant e.2) ∧
        g.exec fuel (rs.flatMap Round.events) = some g' ∧ s'.Shows tx g' := by
  induction ts generalizing s g with
  | nil =>
      obtain rfl := Option.some.inj hrun
      exact ⟨[], g, .nil, fun r hr => absurd hr List.not_mem_nil, rfl, h⟩
  | cons t ts ih =>
      obtain ⟨s₁, hstep, hrun⟩ := runAll_cons.mp hrun
      obtain ⟨r, g₁, hlayers, hx, hfirst, hshows₁⟩ := h.step hpaid hstep
      obtain ⟨rs, g', hts, hrs, hrest, hshows⟩ := ih hshows₁ (hpaid.step hstep) hrun
      refine ⟨r :: rs, g', .cons hx hts, ?_, ?_, hshows⟩
      · exact List.forall_mem_cons.mpr ⟨hlayers, hrs⟩
      · rw [MacGrid.exec, List.flatMap_cons, runAll_append, Option.bind_eq_some_iff]
        exact ⟨g₁, hfirst, hrest⟩

end Emulation.Cell

/-! ### Runs with threads -/

namespace Emulation.Emulator

variable {K W V : Type} [Neg K] [One K] [LinearOrder K] [Zero K] [DecidableEq W] [DecidableEq V]
  [Fintype W] [Fintype V]

/-- **The simulator refines two grids that never meet.**  Over UEs of both kinds, with threads or
without and however they are scheduled, a run of the simulator is for each direction a run of its
grid alone with its layers alone: in each step one step of the grid, then events of the layers
that are no grants, then one estimation of the channel of each UE, with the time of the step. -/
theorem threads_refine_directions (M : LogMath) (fuel : ℕ)
    (cell : Cell K (SimulatedPacketHandler ⊕ CapturedPacketHandler) (Empty ⊕ NfqPacketMetadata)
      (ℚ × Draws))
    (threading multithreading : Bool) (macIndex ueIndex : ℤ) (xs : List (ℚ × Schedule W V))
    (e : Emulator K (SimulatedPacketHandler ⊕ CapturedPacketHandler) (Empty ⊕ NfqPacketMetadata)
      (ℚ × Draws) W V)
    (hnew : ∀ u ∈ cell.ueList, ∀ tx, ∃ ueType cfg verbosity seeds budgetS,
      u.pdcp tx = makePdcpLayer ueType cfg verbosity seeds budgetS)
    (hrun : (make cell threading multithreading macIndex ueIndex).exec M fuel xs = some e) :
    ∀ tx, ∃ (rs : List (Round (Empty ⊕ NfqPacketMetadata) (ℚ × Draws)))
      (g : MacGrid K (SimulatedPacketHandler ⊕ CapturedPacketHandler)),
      List.Forall₂ (fun x r => ∀ i, (r.channel i).currentT = x.1) xs rs ∧
        (∀ r ∈ rs, ∀ ev ∈ r.layers, ¬IsGrant ev.2) ∧
        (cell.view tx).exec fuel (rs.flatMap Round.events) = some g ∧ e.cell.Shows tx g := by
  intro tx
  have hcell := ((ready_make cell threading multithreading macIndex ueIndex).exec hrun).1
  have hpaid : cell.Paid := by
    intro u hu tx
    obtain ⟨ueType, cfg, verbosity, seeds, budgetS, hq⟩ := hnew u hu tx
    rw [hq]
    exact makePdcpLayer_paid ueType cfg verbosity seeds budgetS
  obtain ⟨rs, g, hts, hrs, hexec, hshows⟩ := (cell.shows_view tx).exec hpaid hcell
  exact ⟨rs, g, List.forall₂_map_left_iff.mp hts, hrs, hexec, hshows⟩

/-- Two steps of the mixed cell, for the downlink. -/
theorem threads_refine_directions_mixed :
    ∃ e, (make (mixedCell id) true true 0 0).exec roughMath 5 mixedRun = some e ∧
      e.cell.gridDl.lastStepMetrics.effectiveBits = 400 ∧
      ∀ tx, ∃ rs g, List.Forall₂ (fun x r => ∀ i, (r.channel i).currentT = x.1) mixedRun rs ∧
        (∀ r ∈ rs, ∀ ev ∈ r.layers, ¬IsGrant ev.2) ∧
        ((mixedCell id).view tx).exec 5 (rs.flatMap Round.events) = some g ∧
        e.cell.Shows tx g := by
  have hnew : ∀ u ∈ (mixedCell id).ueList, ∀ tx, ∃ ueType cfg verbosity seeds budgetS,
      u.pdcp tx = makePdcpLayer ueType cfg verbosity seeds budgetS := by
    intro u hu tx
    rcases List.mem_pair.mp hu with rfl | rfl
    · cases tx <;> exact ⟨_, _, _, _, _, rfl⟩
    · cases tx <;> exact ⟨_, _, _, _, _, rfl⟩
  refine Runs.exists_of_view (fun e => e.cell.gridDl.lastStepMetrics.effectiveBits) (x := 400)
    (by decide +kernel) fun e he hview => ?_
  exact ⟨hview, threads_refine_directions roughMath 5 (mixedCell id) true true 0 0 mixedRun e
    hnew he⟩

end Emulation.Emulator

end NetworkEmulator
