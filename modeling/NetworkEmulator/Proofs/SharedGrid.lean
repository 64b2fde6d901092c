/-
A grid on the shared list of UEs is the grid of its direction.

`MacGrid` has the scheduler's UEs and their PDCP layers for one direction, and gets what the
channel says from outside.  A grid of the cell reads all of that from the UEs it shares with
the other grid.  Call by call it does what `MacGrid.step` does (`Shows`), with the channel as
the physical layers of the UEs have it.
-/
import NetworkEmulator.Library.Simulation
import NetworkEmulator.Proofs.Threads

namespace NetworkEmulator.Emulation

variable {K H Env In : Type}

namespace Ue

@[simp] theorem pdcp_setPdcp (u : Ue K H Env In) (tx : Direction) (q : PdcpLayer H) :
    (u.setPdcp tx q).pdcp tx = q := by cases tx <;> rfl

@[simp] theorem phy_setPdcp (u : Ue K H Env In) (tx tx' : Direction) (q : PdcpLayer H) :
    (u.setPdcp tx q).phy tx' = u.phy tx' := by cases tx <;> cases tx' <;> rfl

@[simp] theorem distance_setPdcp (u : Ue K H Env In) (tx : Direction) (q : PdcpLayer H) :
    (u.setPdcp tx q).distance = u.distance := by cases tx <;> rfl

end Ue

variable [Neg K] [One K]

/-! ### What a grid finds -/

namespace CellGrid

/-- The grid a number of time slots on. -/
def after (g : CellGrid K) : ℕ → Option (CellGrid K)
  | 0 => some g
  | t + 1 => (g.after t).bind getSyms

/-- The symbols it finds in time slot `t` of its next step. -/
def symsAt (g : CellGrid K) (t : ℕ) : ℕ := ((g.after (t + 1)).map CellGrid.syms).getD 0

/-- Two grids that will find the same symbols. -/
structure SameClock (g g' : CellGrid K) : Prop where
  duplexingT : g'.duplexingT = g.duplexingT
  nSymRbg : g'.nSymRbg = g.nSymRbg
  tddH : g'.tddH = g.tddH

theorem SameClock.getSyms {g g' g₁ : CellGrid K} (h : SameClock g g')
    (hsyms : g'.getSyms = some g₁) :
    ∃ g₂, g.getSyms = some g₂ ∧ SameClock g₂ g₁ ∧ g₁.syms = g₂.syms := by
  unfold CellGrid.getSyms at hsyms ⊢
  rw [h.duplexingT, h.nSymRbg, h.tddH] at hsyms
  split at hsyms
  · rename_i hd
    obtain ⟨x, hx, rfl⟩ := Option.map_eq_some_iff.mp hsyms
    rw [hx]
    exact ⟨_, rfl, ⟨rfl, rfl, rfl⟩, rfl⟩
  · rename_i hd
    obtain rfl := Option.some.inj hsyms
    exact ⟨_, rfl, ⟨rfl, rfl, rfl⟩, rfl⟩

/-- The grid is the one of `g`. -/
structure Shows (b : CellGrid K) (g : MacGrid K H) : Prop where
  nTimeRbg : g.nTimeRbg = b.nTimeRbg
  nFreqRbg : g.nFreqRbg = b.nFreqRbg
  blocks : g.rbGrid = b.rbGrid
  capacity : g.maxCapacityBits = b.maxCapacityBits
  metrics : g.lastStepMetrics = b.lastStepMetrics

@[simp] theorem rbGrid_setRb (g : CellGrid K) (t f : ℕ) (b : Rb ℚ K) :
    (g.setRb t f b).rbGrid t f = b := by
  simp only [setRb, Function.update_self]

@[simp] theorem setRb_setRb (g : CellGrid K) (t f : ℕ) (b b' : Rb ℚ K) :
    (g.setRb t f b).setRb t f b' = g.setRb t f b' := by
  simp only [setRb, Function.update_self, Function.update_idem]

theorem getSyms_rest {g g' : CellGrid K} (h : g.getSyms = some g') :
    g' = { g with syms := g'.syms, tddH := g'.tddH } := by
  rw [CellGrid.getSyms] at h
  split at h
  · obtain ⟨c, -, rfl⟩ := Option.map_eq_some_iff.mp h
    rfl
  · obtain rfl := Option.some.inj h
    rfl

theorem SameClock.trans {g₁ g₂ g₃ : CellGrid K} (h : SameClock g₁ g₂) (h' : SameClock g₂ g₃) :
    SameClock g₁ g₃ :=
  ⟨h'.1.trans h.1, h'.2.trans h.2, h'.3.trans h.3⟩

/-- Counting leaves the clock alone. -/
theorem count_clock (g : CellGrid K) (t f : ℕ) :
    SameClock g (g.count t f) ∧ (g.count t f).syms = g.syms := by
  rw [CellGrid.count]
  split
  · split
    · exact ⟨⟨rfl, rfl, rfl⟩, rfl⟩
    · exact ⟨⟨rfl, rfl, rfl⟩, rfl⟩
  · exact ⟨⟨rfl, rfl, rfl⟩, rfl⟩

@[simp] theorem syms_setRb (g : CellGrid K) (t f : ℕ) (b : Rb ℚ K) :
    (g.setRb t f b).syms = g.syms := rfl

end CellGrid

namespace Cell

/-- The list of UEs is another. -/
def setUes (s : Cell K H Env In) (us : List (Ue K H Env In)) : Cell K H Env In :=
  { s with ueList := us }

@[simp] theorem ueList_setUes (s : Cell K H Env In) (us : List (Ue K H Env In)) :
    (s.setUes us).ueList = us := rfl

@[simp] theorem grid_setUes (s : Cell K H Env In) (us : List (Ue K H Env In)) (tx : Direction) :
    (s.setUes us).grid tx = s.grid tx := by cases tx <;> rfl

@[simp] theorem setGrid_setUes (s : Cell K H Env In) (tx : Direction) (g : CellGrid K)
    (us : List (Ue K H Env In)) : (s.setUes us).setGrid tx g = (s.setGrid tx g).setUes us := by
  cases tx <;> rfl

@[simp] theorem setGrid_setGrid (s : Cell K H Env In) (tx : Direction) (g g' : CellGrid K) :
    (s.setGrid tx g).setGrid tx g' = s.setGrid tx g' := by
  cases tx <;> rfl

@[simp] theorem setUes_setUes (s : Cell K H Env In) (us us' : List (Ue K H Env In)) :
    (s.setUes us).setUes us' = s.setUes us' := rfl

/-- What the grid of a direction finds outside its blocks and the queues. -/
def gridInput (s : Cell K H Env In) (tx : Direction) : GridInput where
  syms := (s.grid tx).symsAt
  mcs i f := (s.ueList[i]?.map fun u => (u.phy tx).getMcs f).getD 0
  sinr i f := (s.ueList[i]?.map fun u => (u.phy tx).getSinr f).getD 0
  distance i := (s.ueList[i]?.map Ue.distance).getD 0

/-- The grid of a direction with its sides of the UEs is `g`, apart from the history. -/
structure Shows (s : Cell K H Env In) (tx : Direction) (g : MacGrid K H) : Prop where
  grid : (s.grid tx).Shows g
  ues : g.ueList = s.ueList.map fun u => (u.phy tx).toPhyMetrics
  pdcps : g.pdcps = s.ueList.map fun u => u.pdcp tx

/-- What the physical layers of the UEs say is what `x` says. -/
def Heard (s : Cell K H Env In) (tx : Direction) (x : GridInput) : Prop :=
  ∀ i u, s.ueList[i]? = some u → (∀ f, x.mcs i f = (u.phy tx).getMcs f) ∧
    (∀ f, x.sinr i f = (u.phy tx).getSinr f) ∧ x.distance i = u.distance

theorem heard_gridInput (s : Cell K H Env In) (tx : Direction) : s.Heard tx (s.gridInput tx) := by
  intro i u hu
  simp [gridInput, hu]

theorem Shows.length {s : Cell K H Env In} {tx : Direction} {g : MacGrid K H} (h : s.Shows tx g) :
    g.ueList.length = s.ueList.length := by rw [h.ues, List.length_map]

theorem Shows.hasPackets {s : Cell K H Env In} {tx : Direction} {g : MacGrid K H}
    (h : s.Shows tx g) {i : ℕ} {u : Ue K H Env In} (hu : s.ueList[i]? = some u) :
    g.hasPackets i = u.hasPackets tx := by
  rw [MacGrid.hasPackets, h.pdcps, List.getElem?_map, hu]
  rfl

/-! ### The top of a step -/

/-- In the middle of a step: the flags of the UEs that were served are as in `step`. -/
structure Within (s : Cell K H Env In) (tx : Direction) (x : GridInput) (g : MacGrid K H)
    (flags : List Bool) : Prop where
  shows : s.Shows tx g
  heard : s.Heard tx x
  flags_eq : (s.grid tx).scheduledUes = flags

section

variable {tx : Direction} {s : Cell K H Env In} {g g' : MacGrid K H} {x : GridInput}
  {flags flags' : List Bool} {b : CellGrid K}

/-- The grid of the cell is another. -/
theorem Within.setGrid (h : s.Within tx x g flags) (hb : b.Shows g') (hues : g'.ueList = g.ueList)
    (hpdcps : g'.pdcps = g.pdcps) (hflags : b.scheduledUes = flags') :
    (s.setGrid tx b).Within tx x g' flags' := by
  refine ⟨⟨by rwa [grid_setGrid], ?_, ?_⟩, fun i u hu => ?_, by rwa [grid_setGrid]⟩
  · rw [ueList_setGrid, hues]
    exact h.shows.ues
  · rw [ueList_setGrid, hpdcps]
    exact h.shows.pdcps
  · rw [ueList_setGrid] at hu
    exact h.heard i u hu

end

variable [LinearOrder K] [Zero K] [PacketHandler H Env In] {fuel : ℕ} {tx : Direction}
  {s s' : Cell K H Env In} {g : MacGrid K H} {x : GridInput} {flags : List Bool}

omit [LinearOrder K] [Zero K] [PacketHandler H Env In] in
/-- A grid that asks a UE and leaves it as it is. -/
private theorem withUe_same {i : ℕ} {u : Ue K H Env In} (hu : s.ueList[i]? = some u)
    (k : CellGrid K → Ue K H Env In → CellGrid K) :
    s.withUe tx i (fun g u => some (k g u, u)) = some (s.setGrid tx (k (s.grid tx) u)) := by
  have hset : s.ueList.set i u = s.ueList := by
    obtain ⟨hi, rfl⟩ := List.getElem?_eq_some_iff.mp hu
    exact List.set_getElem_self hi
  simp only [withUe, hu, Option.bind_some, Option.map_some, hset]
  cases tx <;> rfl

/-- So many more UEs with packets. -/
private def addActive (g : CellGrid K) (n : ℕ) : CellGrid K :=
  { g with lastStepMetrics :=
      { g.lastStepMetrics with activeUesWithData := g.lastStepMetrics.activeUesWithData + n } }

/-- What the grid counts of the UEs with packets. -/
private theorem countActive_run {n : ℕ} (hn : n ≤ s.ueList.length)
    (hrun : Runs.runAll (gridCall fuel tx) s ((List.range n).map .hasPackets) = some s') :
    s' = s.setGrid tx (addActive (s.grid tx)
      ((List.range n).countP fun i => s.ueList[i]?.any fun u => u.hasPackets tx)) := by
  induction n generalizing s' with
  | zero =>
      obtain rfl := Option.some.inj hrun
      cases tx <;> rfl
  | succ n ih =>
      rw [List.range_succ, List.map_append, Runs.runAll_append, Option.bind_eq_some_iff] at hrun
      obtain ⟨s₁, hrun, hlast⟩ := hrun
      obtain rfl := ih (by omega) hrun
      obtain ⟨u, hu⟩ : ∃ u, s.ueList[n]? = some u := ⟨_, List.getElem?_eq_getElem hn⟩
      obtain ⟨s₂, hcall, hnil⟩ := Runs.runAll_cons.mp hlast
      obtain rfl := Option.some.inj hnil
      rw [gridCall, withUe_same (by rw [ueList_setGrid]; exact hu), grid_setGrid] at hcall
      rw [← Option.some.inj hcall, List.range_succ, List.countP_append]
      cases tx <;> cases hp : u.hasPackets _ <;>
        simp [setGrid, CellGrid.countActive, addActive, hu, hp, grid, add_assoc]

/-- **The top of a step.** -/
private theorem Shows.start (h : s.Shows tx g) (hx : s.Heard tx x)
    (hrun : Runs.runAll (gridCall fuel tx) s
      (.start :: (List.range s.ueList.length).map .hasPackets) = some s') :
    s'.Within tx x g.startStep (List.replicate g.ueList.length false) ∧
      (s.grid tx).SameClock (s'.grid tx) ∧ s'.ueList.length = s.ueList.length := by
  obtain ⟨s₁, hstart, hrun⟩ := Runs.runAll_cons.mp hrun
  obtain rfl := Option.some.inj hstart
  have hlist : (s.setGrid tx ((s.grid tx).start s.ueList.length)).ueList = s.ueList :=
    ueList_setGrid ..
  obtain rfl := countActive_run (by rw [hlist]) hrun
  simp only [grid_setGrid, hlist]
  have hcount : (List.range s.ueList.length).countP
        (fun i => s.ueList[i]?.any fun u => u.hasPackets tx)
      = (List.range g.ueList.length).countP g.hasPackets := by
    rw [h.length]
    refine List.countP_congr fun i hi => ?_
    obtain ⟨u, hu⟩ : ∃ u, s.ueList[i]? = some u :=
      ⟨_, List.getElem?_eq_getElem (List.mem_range.mp hi)⟩
    rw [h.hasPackets hu, hu]
    rfl
  refine ⟨⟨⟨⟨?_, ?_, ?_, ?_, ?_⟩, ?_, ?_⟩, ?_, ?_⟩, ?_, ?_⟩
  · rw [grid_setGrid]; exact h.grid.nTimeRbg
  · rw [grid_setGrid]; exact h.grid.nFreqRbg
  · rw [grid_setGrid]; exact h.grid.blocks
  · rw [grid_setGrid]; exact h.grid.capacity
  · rw [grid_setGrid, hcount]
    simp [MacGrid.startStep, addActive, CellGrid.start, h.grid.capacity]
  · rw [ueList_setGrid, hlist]; exact h.ues
  · rw [ueList_setGrid, hlist]; exact h.pdcps
  · intro i u hu
    rw [ueList_setGrid, hlist] at hu
    exact hx i u hu
  · rw [grid_setGrid, h.length]; rfl
  · exact ⟨rfl, rfl, rfl⟩
  · rw [ueList_setGrid, hlist]

/-! ### A block -/

omit [PacketHandler H Env In] in
/-- A list of which the first `k` are changed. -/
private theorem mapIdx_step {α : Type} (l : List α) (f : ℕ → α → α) {k : ℕ} {a : α}
    (ha : l[k]? = some a) :
    (l.mapIdx fun i b => if i < k then f i b else b)[k]? = some a ∧
      (l.mapIdx fun i b => if i < k then f i b else b).set k (f k a)
        = l.mapIdx fun i b => if i < k + 1 then f i b else b := by
  have hk : k < l.length := (List.getElem?_eq_some_iff.mp ha).1
  refine ⟨by simp [List.getElem?_mapIdx, ha], List.ext_getElem? fun j => ?_⟩
  rw [List.getElem?_set, List.length_mapIdx, List.getElem?_mapIdx, List.getElem?_mapIdx]
  by_cases hj : k = j
  · rw [if_pos hj, if_pos hk, ← hj, ha]
    simp
  · rw [if_neg hj]
    refine congrArg (fun f => Option.map f l[j]?) (funext fun b => ?_)
    have hlt : (j < k) = (j < k + 1) := by
      refine propext ⟨fun h => by omega, fun h => by omega⟩
    simp only [hlt]

private theorem map_mapIdx {α β γ : Type} (l : List α) (f : ℕ → α → β) (g : β → γ) :
    (l.mapIdx f).map g = l.mapIdx fun i a => g (f i a) := by
  refine List.ext_getElem? fun i => ?_
  simp only [List.getElem?_map, List.getElem?_mapIdx, Option.map_map, Function.comp_def]

/-- UE `i` once it was a candidate for block `f`. -/
private def asked (s : Cell K H Env In) (tx : Direction) (f i : ℕ) (u : Ue K H Env In) :
    Ue K H Env In :=
  (u.getScheduleCandidate tx f s.ueList.length i).2

/-- The candidates for a block. -/
private def offers (s : Cell K H Env In) (tx : Direction) (f : ℕ) :
    List (ScheduleCandidate ℚ K) :=
  s.ueList.mapIdx fun i u => (u.getScheduleCandidate tx f s.ueList.length i).1

/-- Block `t`, `f` once the first `k` UEs were candidates for it. -/
private def considered (s : Cell K H Env In) (tx : Direction) (t f k : ℕ) : Rb ℚ K :=
  let b := (s.grid tx).rbGrid t f
  { b with maxMetric := ((s.offers tx b.f).take k).foldl Rb.consider b.maxMetric }

omit [PacketHandler H Env In] in
private theorem considerUe_pos {n t f i : ℕ} {b : CellGrid K} {u : Ue K H Env In} (h : 0 < b.syms) :
    considerUe tx n t f i b u
      = some (b.setRb t f { b.rbGrid t f with
          maxMetric := Rb.consider (b.rbGrid t f).maxMetric
            (u.getScheduleCandidate tx (b.rbGrid t f).f n i).1 },
        (u.getScheduleCandidate tx (b.rbGrid t f).f n i).2) := if_pos h

omit [LinearOrder K] [Zero K] [PacketHandler H Env In] in
/-- A grid that is answered by a UE. -/
private theorem withUe_of {i : ℕ} {u u' : Ue K H Env In} {b : CellGrid K}
    {k : CellGrid K → Ue K H Env In → Option (CellGrid K × Ue K H Env In)}
    (hu : s.ueList[i]? = some u) (hk : k (s.grid tx) u = some (b, u')) :
    s.withUe tx i k = some ((s.setGrid tx b).setUes (s.ueList.set i u')) := by
  rw [withUe, hu, Option.bind_some, hk]
  rfl

/-- What `estimate_params` makes of the first `k` UEs. -/
private theorem estimate_run {t f k : ℕ} (hk : k ≤ s.ueList.length) (hsyms : 0 < (s.grid tx).syms)
    (hrun : Runs.runAll (gridCall fuel tx) s ((List.range k).map (.estimateParams t f)) = some s') :
    s' = (s.setGrid tx ((s.grid tx).setRb t f (s.considered tx t f k))).setUes
      (s.ueList.mapIdx fun i u =>
        if i < k then s.asked tx ((s.grid tx).rbGrid t f).f i u else u) := by
  induction k generalizing s' with
  | zero =>
      obtain rfl := Option.some.inj hrun
      have hb : (s.grid tx).setRb t f (s.considered tx t f 0) = s.grid tx := by
        simp [CellGrid.setRb, considered, Function.update_eq_self]
      have hus : (s.ueList.mapIdx fun i u =>
          if i < 0 then s.asked tx ((s.grid tx).rbGrid t f).f i u else u) = s.ueList := by
        refine List.ext_getElem? fun j => ?_
        simp [List.getElem?_mapIdx]
      rw [hb, hus]
      cases tx <;> rfl
  | succ k ih =>
      rw [List.range_succ, List.map_append, Runs.runAll_append, Option.bind_eq_some_iff] at hrun
      obtain ⟨s₁, hrun, hlast⟩ := hrun
      obtain rfl := ih (by omega) hrun
      obtain ⟨u, hu⟩ : ∃ u, s.ueList[k]? = some u := ⟨_, List.getElem?_eq_getElem hk⟩
      obtain ⟨hat, hset⟩ := mapIdx_step s.ueList (s.asked tx ((s.grid tx).rbGrid t f).f) hu
      obtain ⟨s₂, hcall, hnil⟩ := Runs.runAll_cons.mp hlast
      obtain rfl := Option.some.inj hnil
      set c := u.getScheduleCandidate tx ((s.grid tx).rbGrid t f).f s.ueList.length k with hc
      have hoffer : (s.offers tx ((s.grid tx).rbGrid t f).f)[k]? = some c.1 := by
        rw [offers, List.getElem?_mapIdx, hu]
        rfl
      have hblock : s.considered tx t f (k + 1)
          = { s.considered tx t f k with
              maxMetric := Rb.consider (s.considered tx t f k).maxMetric c.1 } := by
        rw [considered, List.take_add_one, hoffer]
        simp [considered]
      have hasked : s.asked tx ((s.grid tx).rbGrid t f).f k u = c.2 := rfl
      rw [gridCall, withUe_of hat (considerUe_pos (by
        rw [grid_setUes, grid_setGrid]
        exact hsyms))] at hcall
      rw [← Option.some.inj hcall, ueList_setUes, List.length_mapIdx, grid_setUes, grid_setGrid,
        setGrid_setUes, setGrid_setGrid, setUes_setUes, CellGrid.rbGrid_setRb,
        CellGrid.setRb_setRb, hblock, ← hset, hasked]
      rfl

/-- UE `u'` is `u` but for what the scheduler asks of its layer. -/
private def OnlyAsked (tx : Direction) (u u' : Ue K H Env In) : Prop :=
  ∃ p, u' = u.setPhy tx { u.phy tx with toPhyMetrics := p }

omit [LinearOrder K] [PacketHandler H Env In] in
private theorem onlyAsked_asked (s : Cell K H Env In) (f i : ℕ) (u : Ue K H Env In) :
    OnlyAsked tx u (s.asked tx f i u) := by
  cases tx <;> exact ⟨_, rfl⟩

omit [LinearOrder K] [PacketHandler H Env In] in
/-- The candidates for a block are those of the grid. -/
private theorem Shows.candidates (h : s.Shows tx g) (f : ℕ) :
    Rb.candidates f g.ueList g.hasPackets = s.ueList.mapIdx fun i u =>
      ((u.getScheduleCandidate tx f s.ueList.length i).1,
        ((s.asked tx f i u).phy tx).toPhyMetrics) := by
  refine List.ext_getElem? fun i => ?_
  rw [Rb.candidates, h.length, h.ues, List.getElem?_mapIdx, List.getElem?_map,
    List.getElem?_mapIdx]
  cases hu : s.ueList[i]? with
  | none => rfl
  | some u =>
      simp only [Option.map_some, h.hasPackets hu]
      cases tx <;> rfl

/-- In a time slot without symbols no UE is asked. -/
private theorem estimate_none {t f k : ℕ} (hk : k ≤ s.ueList.length) (hsyms : (s.grid tx).syms = 0)
    (hrun : Runs.runAll (gridCall fuel tx) s ((List.range k).map (.estimateParams t f)) = some s') :
    s' = s := by
  induction k generalizing s' with
  | zero => exact (Option.some.inj hrun).symm
  | succ k ih =>
      rw [List.range_succ, List.map_append, Runs.runAll_append, Option.bind_eq_some_iff] at hrun
      obtain ⟨s₁, hrun, hlast⟩ := hrun
      obtain rfl := ih (by omega) hrun
      obtain ⟨s₂, hcall, hnil⟩ := Runs.runAll_cons.mp hlast
      obtain rfl := Option.some.inj hnil
      obtain ⟨u, hu⟩ : ∃ u, s₁.ueList[k]? = some u := ⟨_, List.getElem?_eq_getElem hk⟩
      have hsame : considerUe tx s₁.ueList.length t f k (s₁.grid tx) u = some (s₁.grid tx, u) :=
        if_neg (by rw [hsyms]; exact lt_irrefl 0)
      have hset : s₁.ueList.set k u = s₁.ueList := by
        obtain ⟨hi, rfl⟩ := List.getElem?_eq_some_iff.mp hu
        exact List.set_getElem_self hi
      rw [gridCall, withUe_of hu hsame, hset] at hcall
      rw [← Option.some.inj hcall]
      cases tx <;> rfl

omit [PacketHandler H Env In] in
/-- `estimate_params` of the grid, in words of the cell. -/
private theorem Shows.estimateParams (h : s.Shows tx g) {t f syms : ℕ} (hsyms : 0 < syms) :
    (g.rbGrid t f).estimateParams syms g.ueList g.hasPackets
      = (s.considered tx t f s.ueList.length,
        (s.ueList.mapIdx (s.asked tx ((s.grid tx).rbGrid t f).f)).map
          fun u => (u.phy tx).toPhyMetrics) := by
  have hoffers : (s.offers tx ((s.grid tx).rbGrid t f).f).take s.ueList.length
      = s.offers tx ((s.grid tx).rbGrid t f).f :=
    List.take_of_length_le (by rw [offers, List.length_mapIdx])
  rw [Rb.estimateParams, if_pos hsyms, h.grid.blocks, h.candidates, considered, hoffers, offers]
  simp only [map_mapIdx]

/-- **`estimate_params`** of the grid and of the cell. -/
private theorem Shows.estimate (h : s.Shows tx g) {t f : ℕ}
    (hrun : Runs.runAll (gridCall fuel tx) s
      ((List.range s.ueList.length).map (.estimateParams t f)) = some s') :
    ∃ us, s' = (s.setGrid tx ((s.grid tx).setRb t f
        ((g.rbGrid t f).estimateParams (s.grid tx).syms g.ueList g.hasPackets).1)).setUes us ∧
      us.map (fun u => (u.phy tx).toPhyMetrics)
        = ((g.rbGrid t f).estimateParams (s.grid tx).syms g.ueList g.hasPackets).2 ∧
      List.Forall₂ (OnlyAsked tx) s.ueList us := by
  rcases Nat.eq_zero_or_pos (s.grid tx).syms with hsyms | hsyms
  · obtain rfl := estimate_none le_rfl hsyms hrun
    rw [Rb.estimateParams, if_neg (by rw [hsyms]; exact lt_irrefl 0), h.grid.blocks, h.ues]
    refine ⟨s'.ueList, ?_, rfl, ?_⟩
    · rw [CellGrid.setRb, Function.update_eq_self, Function.update_eq_self]
      cases tx <;> rfl
    · refine List.forall₂_same.mpr fun u _ => ?_
      cases tx <;> exact ⟨_, rfl⟩
  · obtain rfl := estimate_run le_rfl hsyms hrun
    have hall : (s.ueList.mapIdx fun i u => if i < s.ueList.length then
        s.asked tx ((s.grid tx).rbGrid t f).f i u else u)
          = s.ueList.mapIdx (s.asked tx ((s.grid tx).rbGrid t f).f) := by
      refine List.ext_getElem (by simp) fun i hi _ => ?_
      rw [List.length_mapIdx] at hi
      rw [List.getElem_mapIdx, List.getElem_mapIdx, if_pos hi]
    rw [h.estimateParams hsyms, hall]
    refine ⟨_, rfl, rfl, ?_⟩
    refine List.forall₂_iff_get.mpr ⟨by simp, fun i hi _ => ?_⟩
    rw [List.get_eq_getElem, List.get_eq_getElem, List.getElem_mapIdx]
    exact onlyAsked_asked ..

omit [LinearOrder K] [Zero K] [PacketHandler H Env In] in
/-- What `step` counts after a block. -/
private theorem Within.count (h : s.Within tx x g flags) (t f : ℕ) :
    (s.setGrid tx ((s.grid tx).count t f)).Within tx x (g.count flags (g.rbGrid t f)).1
      (g.count flags (g.rbGrid t f)).2 := by
  obtain ⟨htime, hfreq, hblocks, hcapacity, hmetrics⟩ := h.shows.grid
  rw [CellGrid.count, MacGrid.count, hblocks, h.flags_eq, ← hmetrics]
  split
  · split
    · exact h.setGrid ⟨htime, hfreq, hblocks, hcapacity, rfl⟩ rfl rfl rfl
    · exact h.setGrid ⟨htime, hfreq, hblocks, hcapacity, rfl⟩ rfl rfl rfl
  · exact h.setGrid h.shows.grid rfl rfl h.flags_eq

omit [LinearOrder K] [Zero K] [PacketHandler H Env In] in
/-- A call of a UE that is answered. -/
theorem withUe_eq_some {i : ℕ}
    {k : CellGrid K → Ue K H Env In → Option (CellGrid K × Ue K H Env In)}
    (h : s.withUe tx i k = some s') :
    ∃ u c, s.ueList[i]? = some u ∧ k (s.grid tx) u = some c ∧
      s' = (s.setGrid tx c.1).setUes (s.ueList.set i c.2) := by
  obtain ⟨u, hu, h⟩ := Option.bind_eq_some_iff.mp h
  obtain ⟨c, hc, rfl⟩ := Option.map_eq_some_iff.mp h
  exact ⟨u, c, hu, hc, rfl⟩

/-- What is the same of a UE before and after a block. -/
private def SameChannel (tx : Direction) (u u' : Ue K H Env In) : Prop :=
  (∀ f, (u'.phy tx).getMcs f = (u.phy tx).getMcs f) ∧
    (∀ f, (u'.phy tx).getSinr f = (u.phy tx).getSinr f) ∧ u'.distance = u.distance

omit [Neg K] [One K] [LinearOrder K] [Zero K] [PacketHandler H Env In] in
private theorem OnlyAsked.sameChannel {u u' : Ue K H Env In} (h : OnlyAsked tx u u') :
    SameChannel tx u u' ∧ u'.pdcp tx = u.pdcp tx := by
  obtain ⟨p, rfl⟩ := h
  cases tx <;> exact ⟨⟨fun _ => rfl, fun _ => rfl, rfl⟩, rfl⟩

omit [LinearOrder K] [Zero K] [PacketHandler H Env In] in
/-- What the UEs are after `estimate_params`. -/
private theorem asked_at {us : List (Ue K H Env In)} (h : List.Forall₂ (OnlyAsked tx) s.ueList us)
    {i : ℕ} {u' : Ue K H Env In} (hu' : us[i]? = some u') :
    ∃ u, s.ueList[i]? = some u ∧ SameChannel tx u u' ∧ u'.pdcp tx = u.pdcp tx := by
  obtain ⟨hi, rfl⟩ := List.getElem?_eq_some_iff.mp hu'
  have hi' : i < s.ueList.length := by rwa [h.length_eq]
  exact ⟨s.ueList[i], List.getElem?_eq_getElem hi', (h.get hi' hi).sameChannel⟩

omit [Neg K] [One K] [LinearOrder K] [Zero K] [PacketHandler H Env In] in
/-- A UE that was served is in the list. -/
private theorem map_set_setPdcp {us : List (Ue K H Env In)} {i : ℕ} {u : Ue K H Env In}
    {q : PdcpLayer H} (hu : us[i]? = some u) :
    (us.set i (u.setPdcp tx q)).map (fun u => (u.phy tx).toPhyMetrics)
      = us.map fun u => (u.phy tx).toPhyMetrics := by
  obtain ⟨hi, rfl⟩ := List.getElem?_eq_some_iff.mp hu
  rw [List.map_set, Ue.phy_setPdcp]
  refine List.ext_getElem (by simp) fun j _ _ => ?_
  simp only [List.getElem_set, List.getElem_map, ite_eq_right_iff]
  rintro rfl
  rfl

omit [Neg K] [One K] [LinearOrder K] [Zero K] [PacketHandler H Env In] in
private theorem sameChannel_set {us : List (Ue K H Env In)} {i j : ℕ} {u v : Ue K H Env In}
    {q : PdcpLayer H} (hu : us[i]? = some u) (hv : (us.set i (u.setPdcp tx q))[j]? = some v) :
    ∃ v₀, us[j]? = some v₀ ∧ SameChannel tx v₀ v := by
  rw [List.getElem?_set] at hv
  split at hv
  · rename_i hij
    split at hv
    · obtain rfl := Option.some.inj hv
      exact ⟨u, hij ▸ hu, by simp [SameChannel]⟩
    · cases hv
  · exact ⟨v, hv, fun _ => rfl, fun _ => rfl, rfl⟩

omit [Neg K] [One K] [LinearOrder K] [Zero K] [PacketHandler H Env In] in
private theorem SameChannel.trans {u v w : Ue K H Env In} (h : SameChannel tx u v)
    (h' : SameChannel tx v w) : SameChannel tx u w :=
  ⟨fun f => (h'.1 f).trans (h.1 f), fun f => (h'.2.1 f).trans (h.2.1 f), h'.2.2.trans h.2.2⟩

/-- The grid after a block that got `effTp`. -/
private def afterBlock (g : MacGrid K H) (t f syms : ℕ) (effTp : ℚ) (pdcps : List (PdcpLayer H))
    (served : List Served) : MacGrid K H :=
  { g with
    toRbGrid := g.toRbGrid.visit t f syms g.hasPackets fun _ _ => effTp
    pdcps := pdcps
    lastServed := served }

/-- The block that is left then. -/
private def rbAfter (g : MacGrid K H) (t f syms : ℕ) (effTp : ℚ) : Rb ℚ K :=
  ((g.rbGrid t f).estimateParams syms g.ueList g.hasPackets).1.handlePacket syms fun _ _ => effTp

omit [PacketHandler H Env In] in
private theorem Within.visited (h : s.Within tx x g flags) {t f syms : ℕ} (effTp : ℚ)
    {us : List (Ue K H Env In)} (pdcps : List (PdcpLayer H)) (served : List Served)
    (hues : us.map (fun u => (u.phy tx).toPhyMetrics)
      = ((g.rbGrid t f).estimateParams syms g.ueList g.hasPackets).2)
    (hpdcps : pdcps = us.map fun u => u.pdcp tx)
    (hsame : ∀ (i : ℕ) u', us[i]? = some u' → ∃ u, s.ueList[i]? = some u ∧ SameChannel tx u u') :
    ((s.setGrid tx ((s.grid tx).setRb t f (rbAfter g t f syms effTp))).setUes us).Within tx x
      (afterBlock g t f syms effTp pdcps served) flags := by
  refine ⟨⟨?_, hues.symm, hpdcps⟩, fun i u' hu' => ?_, ?_⟩
  · rw [grid_setUes, grid_setGrid]
    refine ⟨h.shows.grid.nTimeRbg, h.shows.grid.nFreqRbg, ?_, h.shows.grid.capacity,
      h.shows.grid.metrics⟩
    show Function.update g.rbGrid t _ = Function.update (s.grid tx).rbGrid t _
    rw [← h.shows.grid.blocks]
    rfl
  · obtain ⟨u, hu, hmcs, hsinr, hdistance⟩ := hsame i u' hu'
    obtain ⟨hm, hs, hd⟩ := h.heard i u hu
    exact ⟨fun f => (hm f).trans (hmcs f).symm, fun f => (hs f).trans (hsinr f).symm,
      hd.trans hdistance.symm⟩
  · rw [grid_setUes, grid_setGrid]
    exact h.flags_eq

/-- **A block of the grid** and of the cell. -/
private theorem Within.block (h : s.Within tx x g flags) {t f : ℕ}
    (hsyms : x.syms t = (s.grid tx).syms)
    (hrun : Runs.runAll (gridCall fuel tx) s (CellGrid.rbCalls s.ueList.length t f) = some s') :
    ∃ c, MacGrid.visitRbg fuel x (g, flags) (t, f) = some c ∧
      s'.Within tx x c.1 c.2 ∧ (s.grid tx).SameClock (s'.grid tx) ∧
      (s'.grid tx).syms = (s.grid tx).syms ∧ s'.ueList.length = s.ueList.length := by
  rw [CellGrid.rbCalls, Runs.runAll_append, Option.bind_eq_some_iff] at hrun
  obtain ⟨s₁, hestimate, hserve⟩ := hrun
  obtain ⟨us, rfl, hues, hasked⟩ := h.shows.estimate hestimate
  obtain ⟨s₂, hcall, hnil⟩ := Runs.runAll_cons.mp hserve
  obtain rfl := Option.some.inj hnil
  rw [gridCall, grid_setUes, grid_setGrid, CellGrid.rbGrid_setRb] at hcall
  have hpdcps : g.pdcps = us.map fun u => u.pdcp tx := by
    rw [h.shows.pdcps]
    refine List.ext_getElem (by rw [List.length_map, List.length_map, hasked.length_eq])
      fun i _ hi => ?_
    rw [List.length_map] at hi
    obtain ⟨u, hu, -, hsame⟩ := asked_at hasked (List.getElem?_eq_getElem hi)
    obtain ⟨_, rfl⟩ := List.getElem?_eq_some_iff.mp hu
    rw [List.getElem_map, List.getElem_map, hsame]
  by_cases hassigned : ((g.rbGrid t f).estimateParams (s.grid tx).syms g.ueList
      g.hasPackets).1.checkUeAssignment.1
  · rw [if_pos hassigned] at hcall
    obtain ⟨u', c, hu', hc, rfl⟩ := withUe_eq_some hcall
    rw [ueList_setUes] at hu'
    rw [grid_setUes, grid_setGrid] at hc
    obtain ⟨d, hd, rfl⟩ := Option.map_eq_some_iff.mp hc
    obtain ⟨⟨effTp, q⟩, hq, rfl⟩ := Option.map_eq_some_iff.mp hd
    obtain ⟨u, hu, hsame, hpdcp⟩ := asked_at hasked hu'
    obtain ⟨hmcs, hsinr, hdistance⟩ := h.heard _ _ hu
    simp only [CellGrid.rbGrid_setRb, CellGrid.syms_setRb] at hq
    set b := ((g.rbGrid t f).estimateParams (s.grid tx).syms g.ueList g.hasPackets).1 with hb
    have hpdcp' : g.pdcps[b.maxMetric.index.toNat]? = some (u'.pdcp tx) := by
      rw [hpdcps, List.getElem?_map, hu', Option.map_some]
    have hanswer : g.handlePkt fuel x b (s.grid tx).syms
        = some (effTp, g.pdcps.set b.maxMetric.index.toNat q) := by
      simp only [MacGrid.handlePkt, hpdcp', hmcs, hsinr, hdistance]
      rw [← hsame.1, ← hsame.2.1, ← hsame.2.2, hq]
      rfl
    have hserve : MacGrid.serve fuel g x t f
        = some (afterBlock g t f (s.grid tx).syms effTp (g.pdcps.set b.maxMetric.index.toNat q)
          (g.lastServed ++ [⟨t, f, b.maxMetric.index⟩])) := by
      rw [MacGrid.serve, hsyms, if_pos hassigned, hanswer]
      rfl
    have hw := (h.visited effTp (g.pdcps.set b.maxMetric.index.toNat q)
      (g.lastServed ++ [⟨t, f, b.maxMetric.index⟩])
      ((map_set_setPdcp hu').trans hues) (by rw [hpdcps, List.map_set, Ue.pdcp_setPdcp])
      fun j v hv => by
        obtain ⟨v₀, hv₀, hsame'⟩ := sameChannel_set hu' hv
        obtain ⟨w, hw, hasked', -⟩ := asked_at hasked hv₀
        exact ⟨w, hw, hasked'.trans hsame'⟩).count t f
    simp only [grid_setUes, grid_setGrid, setGrid_setUes, setGrid_setGrid, CellGrid.setRb_setRb,
      setUes_setUes, CellGrid.rbGrid_setRb, CellGrid.syms_setRb, ueList_setUes] at hw ⊢
    obtain ⟨hclock, hsame⟩ :=
      ((s.grid tx).setRb t f (rbAfter g t f (s.grid tx).syms effTp)).count_clock t f
    exact ⟨_, by rw [MacGrid.visitRbg, hserve]; rfl, hw, ⟨hclock.1, hclock.2, hclock.3⟩, hsame,
      (List.length_set.trans hasked.length_eq.symm)⟩
  · rw [if_neg hassigned] at hcall
    obtain rfl := Option.some.inj hcall
    have hserve : MacGrid.serve fuel g x t f
        = some (afterBlock g t f (s.grid tx).syms 0 g.pdcps g.lastServed) := by
      rw [MacGrid.serve, hsyms]
      exact if_neg hassigned
    have hw := (h.visited 0 g.pdcps g.lastServed hues hpdcps
      fun i u' hu' => (asked_at hasked hu').imp fun u hu => ⟨hu.1, hu.2.1⟩).count t f
    simp only [grid_setUes, grid_setGrid, setGrid_setUes, setGrid_setGrid, CellGrid.setRb_setRb,
      CellGrid.syms_setRb] at hw ⊢
    obtain ⟨hclock, hsame⟩ :=
      ((s.grid tx).setRb t f (rbAfter g t f (s.grid tx).syms 0)).count_clock t f
    exact ⟨_, by rw [MacGrid.visitRbg, hserve]; rfl, hw, ⟨hclock.1, hclock.2, hclock.3⟩, hsame,
      hasked.length_eq.symm⟩

/-! ### A step -/

/-- Before slot `t` of a step of `s₀`. -/
private structure AtSlot (s₀ : Cell K H Env In) (tx : Direction) (x : GridInput) (t : ℕ)
    (s : Cell K H Env In) (c : MacGrid K H × List Bool) : Prop where
  within : s.Within tx x c.1 c.2
  clock : ∃ b, (s₀.grid tx).after t = some b ∧ b.SameClock (s.grid tx)
  length : s.ueList.length = s₀.ueList.length

/-- **A time slot of the grid** and of the cell. -/
private theorem AtSlot.slot {s₀ : Cell K H Env In} {t n : ℕ} {c : MacGrid K H × List Bool}
    (h : AtSlot s₀ tx x t s c) (hx : x.syms = (s₀.grid tx).symsAt)
    (hrun : Runs.runAll (gridCall fuel tx) s (.getSyms :: (List.range n).flatMap fun f =>
      CellGrid.rbCalls s₀.ueList.length t f) = some s') :
    ∃ c', Runs.runAll (MacGrid.visitRbg fuel x) c ((List.range n).flatMap fun f => [(t, f)])
      = some c' ∧ AtSlot s₀ tx x (t + 1) s' c' := by
  obtain ⟨s₁, hsyms, hrun⟩ := Runs.runAll_cons.mp hrun
  obtain ⟨b, hb, rfl⟩ := Option.map_eq_some_iff.mp hsyms
  obtain ⟨b₀, hb₀, hclock⟩ := h.clock
  obtain ⟨b₁, hb₁, hclock₁, heq⟩ := hclock.getSyms hb
  have hafter : (s₀.grid tx).after (t + 1) = some b₁ := by
    rw [CellGrid.after, hb₀, Option.bind_some, hb₁]
  have hslot : x.syms t = b.syms := by
    rw [hx, CellGrid.symsAt, hafter, heq]
    rfl
  have hrest := CellGrid.getSyms_rest hb
  have hstart : (s.setGrid tx b).Within tx x c.1 c.2 := by
    obtain ⟨htime, hfreq, hblocks, hcapacity, hmetrics⟩ := h.within.shows.grid
    rw [hrest]
    exact h.within.setGrid ⟨htime, hfreq, hblocks, hcapacity, hmetrics⟩ rfl rfl h.within.flags_eq
  have hblocks : ∀ f < n, ∀ (s : Cell K H Env In) (c : MacGrid K H × List Bool) s',
      (s.Within tx x c.1 c.2 ∧ b₁.SameClock (s.grid tx) ∧ (s.grid tx).syms = b.syms ∧
        s.ueList.length = s₀.ueList.length) →
      Runs.runAll (gridCall fuel tx) s (CellGrid.rbCalls s₀.ueList.length t f) = some s' →
      ∃ c', Runs.runAll (MacGrid.visitRbg fuel x) c [(t, f)] = some c' ∧
        s'.Within tx x c'.1 c'.2 ∧ b₁.SameClock (s'.grid tx) ∧ (s'.grid tx).syms = b.syms ∧
        s'.ueList.length = s₀.ueList.length := by
    rintro f - s c s' ⟨hwithin, hclock, hsame, hlength⟩ hcalls
    rw [← hlength] at hcalls
    obtain ⟨d, hd, hwithin', hclock', hsame', hlength'⟩ :=
      hwithin.block (hslot.trans hsame.symm) hcalls
    exact ⟨d, Runs.runAll_cons.mpr ⟨d, hd, rfl⟩, hwithin', hclock.trans hclock',
      hsame'.trans hsame, hlength'.trans hlength⟩
  obtain ⟨c', hruns, hwithin, hclock', -, hlength⟩ := Simulation.run_range
    (R := fun _ (s : Cell K H Env In) (c : MacGrid K H × List Bool) => s.Within tx x c.1 c.2 ∧
      b₁.SameClock (s.grid tx) ∧ (s.grid tx).syms = b.syms ∧
      s.ueList.length = s₀.ueList.length) hblocks
    ⟨hstart, by rwa [grid_setGrid], by rw [grid_setGrid], by rw [ueList_setGrid, h.length]⟩ hrun
  exact ⟨c', hruns, hwithin, ⟨b₁, hafter, hclock'⟩, hlength⟩

/-- **A step of a grid of the cell is a step of the grid of its direction**, with the channel as
the UEs have it. -/
theorem Shows.gridStep (h : s.Shows tx g) (hstep : s.gridStep fuel tx = some s') :
    ∃ g', g.step fuel (s.gridInput tx) = some g' ∧ s'.Shows tx g' := by
  rw [Cell.gridStep, gridCalls, CellGrid.calls, Runs.runAll_append,
    Option.bind_eq_some_iff] at hstep
  obtain ⟨s₂, hstep, hfinish⟩ := hstep
  rw [Runs.runAll_append, Option.bind_eq_some_iff] at hstep
  obtain ⟨s₁, hstart, hslots⟩ := hstep
  obtain ⟨hwithin, hclock, hlength⟩ := h.start (s.heard_gridInput tx) hstart
  have hslot : AtSlot s tx (s.gridInput tx) 0 s₁
      (g.startStep, List.replicate g.ueList.length false) := ⟨hwithin, ⟨_, rfl, hclock⟩, hlength⟩
  have hround : ∀ t < (s.grid tx).nTimeRbg, ∀ (s₁ : Cell K H Env In) c s₂,
      AtSlot s tx (s.gridInput tx) t s₁ c →
      Runs.runAll (gridCall fuel tx) s₁ (.getSyms :: (List.range (s.grid tx).nFreqRbg).flatMap
        fun f => CellGrid.rbCalls s.ueList.length t f) = some s₂ →
      ∃ c', Runs.runAll (MacGrid.visitRbg fuel (s.gridInput tx)) c
        ((List.range (s.grid tx).nFreqRbg).flatMap fun f => [(t, f)]) = some c' ∧
        AtSlot s tx (s.gridInput tx) (t + 1) s₂ c' :=
    fun t _ s₁ c s₂ hslot hcalls => hslot.slot rfl hcalls
  obtain ⟨c, hruns, hc⟩ := Simulation.run_range hround hslot hslots
  obtain ⟨s₃, hcall, hnil⟩ := Runs.runAll_cons.mp hfinish
  obtain rfl := Option.some.inj hnil
  obtain rfl := Option.some.inj hcall
  have hrbgs : g.rbgs = (List.range (s.grid tx).nTimeRbg).flatMap fun t =>
      (List.range (s.grid tx).nFreqRbg).flatMap fun f => [(t, f)] := by
    rw [MacGrid.rbgs, h.grid.nTimeRbg, h.grid.nFreqRbg]
    simp only [List.map_eq_flatMap]
  refine ⟨c.1.finishStep, ?_, ?_⟩
  · rw [MacGrid.step, hrbgs, hruns]
    rfl
  · obtain ⟨htime, hfreq, hblocks, hcapacity, hmetrics⟩ := hc.within.shows.grid
    have hfinish : (s₂.grid tx).finish.Shows c.1.finishStep := by
      refine ⟨htime, hfreq, hblocks, hcapacity, ?_⟩
      rw [MacGrid.finishStep, CellGrid.finish, htime, hfreq, hmetrics]
    exact (hc.within.setGrid hfinish rfl rfl hc.within.flags_eq).shows

end Cell

end NetworkEmulator.Emulation
