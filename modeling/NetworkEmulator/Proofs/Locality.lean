/-
Which part of the cell a call of a step is about.

Each method of a UE that a grid calls is of the direction of the grid: it reads and leaves
the physical and the PDCP layer of that direction (`KeepsTo`).  So a call of a grid is about
its own blocks and one side of a UE, a call of a UE is about that UE, and the calls of the
two grids, and those of different UEs, can be swapped.
-/
import NetworkEmulator.Library.Interleave
import NetworkEmulator.Model.Cell

namespace NetworkEmulator.Emulation

variable {K H Env In : Type}

/-! ### The sides of a UE -/

namespace Ue

/-- What a UE has for one direction. -/
def side (u : Ue K H Env In) (tx : Direction) : PhyLayer K × PdcpLayer H := (u.phy tx, u.pdcp tx)

/-- The side of a direction is another. -/
def setSide (tx : Direction) (u : Ue K H Env In) (p : PhyLayer K × PdcpLayer H) :
    Ue K H Env In := (u.setPhy tx p.1).setPdcp tx p.2

theorem setSide_comm {tx tx' : Direction} (h : tx ≠ tx') (u : Ue K H Env In)
    (p p' : PhyLayer K × PdcpLayer H) :
    (u.setSide tx p).setSide tx' p' = (u.setSide tx' p').setSide tx p := by
  cases tx <;> cases tx' <;> first | exact absurd rfl h | rfl

theorem side_setSide_of_ne {tx tx' : Direction} (h : tx ≠ tx') (u : Ue K H Env In)
    (p : PhyLayer K × PdcpLayer H) : (u.setSide tx p).side tx' = u.side tx' := by
  cases tx <;> cases tx' <;> first | exact absurd rfl h | rfl

@[simp] theorem setSide_side (u : Ue K H Env In) (tx : Direction) :
    u.setSide tx (u.side tx) = u := by cases tx <;> rfl

@[simp] theorem distance_setSide (u : Ue K H Env In) (tx : Direction)
    (p : PhyLayer K × PdcpLayer H) : (u.setSide tx p).distance = u.distance := by cases tx <;> rfl

theorem setPhy_eq (u : Ue K H Env In) (tx : Direction) (p : PhyLayer K) :
    u.setPhy tx p = u.setSide tx (p, u.pdcp tx) := by cases tx <;> rfl

theorem setPdcp_eq (u : Ue K H Env In) (tx : Direction) (q : PdcpLayer H) :
    u.setPdcp tx q = u.setSide tx (u.phy tx, q) := by cases tx <;> rfl

end Ue

/-! ### The sides of the cell -/

variable [Neg K] [One K]

namespace Cell

@[simp] theorem grid_setGrid (s : Cell K H Env In) (tx : Direction) (g : CellGrid K) :
    (s.setGrid tx g).grid tx = g := by cases tx <;> rfl

theorem grid_setGrid_of_ne {tx tx' : Direction} (h : tx ≠ tx') (s : Cell K H Env In)
    (g : CellGrid K) : (s.setGrid tx g).grid tx' = s.grid tx' := by
  cases tx <;> cases tx' <;> first | exact absurd rfl h | rfl

@[simp] theorem ueList_setGrid (s : Cell K H Env In) (tx : Direction) (g : CellGrid K) :
    (s.setGrid tx g).ueList = s.ueList := by cases tx <;> rfl

/-- Where the UEs are, which no call of a grid changes. -/
def distances (s : Cell K H Env In) : List ℚ := s.ueList.map Ue.distance

/-- The blocks of a direction, and what the UEs have for it. -/
def side (s : Cell K H Env In) (tx : Direction) : CellGrid K × List (PhyLayer K × PdcpLayer H) :=
  (s.grid tx, s.ueList.map fun u => u.side tx)

/-- The side of a direction is another. -/
def setSide (tx : Direction) (s : Cell K H Env In)
    (x : CellGrid K × List (PhyLayer K × PdcpLayer H)) : Cell K H Env In :=
  { s.setGrid tx x.1 with ueList := List.zipWith (Ue.setSide tx) s.ueList x.2 }

theorem setSide_comm {tx tx' : Direction} (h : tx ≠ tx') (s : Cell K H Env In)
    (x y : CellGrid K × List (PhyLayer K × PdcpLayer H)) :
    (s.setSide tx x).setSide tx' y = (s.setSide tx' y).setSide tx x := by
  have hzip : List.zipWith (Ue.setSide tx') (List.zipWith (Ue.setSide tx) s.ueList x.2) y.2
      = List.zipWith (Ue.setSide tx) (List.zipWith (Ue.setSide tx') s.ueList y.2) x.2 := by
    generalize s.ueList = us
    obtain ⟨g, ps⟩ := x
    obtain ⟨g', qs⟩ := y
    induction us generalizing ps qs with
    | nil => simp
    | cons u us ih =>
        cases ps with
        | nil => simp
        | cons p ps =>
            cases qs with
            | nil => simp
            | cons q qs =>
                simp only [List.zipWith_cons_cons, Ue.setSide_comm h u p q]
                exact congrArg _ (ih ps qs)
  unfold setSide
  cases tx <;> cases tx' <;> first | exact absurd rfl h | simpa [setGrid] using hzip

/-- With the right number of UEs, the other side and the places stay. -/
theorem side_setSide_of_ne {tx tx' : Direction} (h : tx ≠ tx') (s : Cell K H Env In)
    {x : CellGrid K × List (PhyLayer K × PdcpLayer H)} (hx : x.2.length = s.ueList.length) :
    (s.setSide tx x).side tx' = s.side tx' ∧ (s.setSide tx x).distances = s.distances := by
  have hzip : ∀ {β : Type} (f : Ue K H Env In → β), (∀ u p, f (u.setSide tx p) = f u) →
      (List.zipWith (Ue.setSide tx) s.ueList x.2).map f = s.ueList.map f := by
    intro β f hf
    obtain ⟨g, ps⟩ := x
    generalize s.ueList = us at hx
    induction us generalizing ps with
    | nil => simp
    | cons u us ih =>
        cases ps with
        | nil => cases hx
        | cons p ps =>
            simp only [List.zipWith_cons_cons, List.map_cons, hf]
            exact congrArg _ (ih ps (Nat.succ.inj hx))
  refine ⟨Prod.ext ?_ (hzip _ fun u p => Ue.side_setSide_of_ne h u p),
    hzip _ fun u p => Ue.distance_setSide u tx p⟩
  exact grid_setGrid_of_ne h s x.1

/-- What a call amounts to that is about the side of one direction. -/
def AboutSide (tx : Direction) (f : Cell K H Env In → Option (Cell K H Env In)) : Prop :=
  ∃ k : List ℚ → CellGrid K × List (PhyLayer K × PdcpLayer H) →
      Option (CellGrid K × List (PhyLayer K × PdcpLayer H)),
    (∀ ds x y, k ds x = some y → y.2.length = x.2.length) ∧
      ∀ s, f s = (k s.distances (s.side tx)).map (s.setSide tx)

/-- **Calls about different sides can be swapped.** -/
theorem AboutSide.comm {tx tx' : Direction} (h : tx ≠ tx')
    {f f' : Cell K H Env In → Option (Cell K H Env In)} (hf : AboutSide tx f)
    (hf' : AboutSide tx' f') (s : Cell K H Env In) : (f s).bind f' = (f' s).bind f := by
  obtain ⟨k, hlen, hk⟩ := hf
  obtain ⟨k', hlen', hk'⟩ := hf'
  have hsame : ∀ {tx tx' : Direction} {k k' : List ℚ → _ → Option _}, tx ≠ tx' →
      (∀ ds x y, k ds x = some y → y.2.length = x.2.length) →
      ∀ x, k s.distances (s.side tx) = some x →
        (k' (s.setSide tx x).distances ((s.setSide tx x).side tx')).map
            ((s.setSide tx x).setSide tx')
          = (k' s.distances (s.side tx')).map ((s.setSide tx x).setSide tx') := by
    intro tx tx' k k' hne hlen x hx
    have hlength : x.2.length = s.ueList.length := by
      rw [hlen _ _ _ hx]
      exact List.length_map _
    rw [(side_setSide_of_ne hne s hlength).1, (side_setSide_of_ne hne s hlength).2]
  rw [hk s, hk' s]
  cases hx : k s.distances (s.side tx) with
  | none =>
      cases hy : k' s.distances (s.side tx') with
      | none => rfl
      | some y =>
          show none = f (s.setSide tx' y)
          rw [hk, hsame (Ne.symm h) hlen' y hy, hx]
          rfl
  | some x =>
      cases hy : k' s.distances (s.side tx') with
      | none =>
          show f' (s.setSide tx x) = none
          rw [hk', hsame h hlen x hx, hy]
          rfl
      | some y =>
          show f' (s.setSide tx x) = f (s.setSide tx' y)
          rw [hk, hk', hsame h hlen x hx, hsame (Ne.symm h) hlen' y hy, hx, hy]
          exact congrArg some (setSide_comm h s x y)

/-! ### The calls of a grid -/

/-- A grid on its own. -/
theorem AboutSide.own (tx : Direction) (f : ℕ → CellGrid K → Option (CellGrid K)) :
    AboutSide tx fun s : Cell K H Env In =>
      (f s.ueList.length (s.grid tx)).map (s.setGrid tx) := by
  refine ⟨fun ds x => (f ds.length x.1).map fun g => (g, x.2), fun ds x y hy => ?_, fun s => ?_⟩
  · obtain ⟨g, -, rfl⟩ := Option.map_eq_some_iff.mp hy
    rfl
  · have hzip : List.zipWith (Ue.setSide tx) s.ueList (s.ueList.map fun u => u.side tx)
        = s.ueList := by
      rw [List.zipWith_map_right]
      simp
    have hset : ∀ g, s.setSide tx (g, s.ueList.map fun u => u.side tx) = s.setGrid tx g := by
      intro g
      rw [setSide, hzip]
      cases tx <;> rfl
    rw [Option.map_map, distances, List.length_map]
    exact congrArg (fun m => Option.map m _) (funext fun g => (hset g).symm)

/-- What the grid of a direction does with a UE is about the side of that direction. -/
def KeepsTo (tx : Direction)
    (f : CellGrid K → Ue K H Env In → Option (CellGrid K × Ue K H Env In)) : Prop :=
  ∃ k : CellGrid K → ℚ → PhyLayer K × PdcpLayer H →
      Option (CellGrid K × (PhyLayer K × PdcpLayer H)),
    ∀ g u, f g u = (k g u.distance (u.side tx)).map fun x => (x.1, u.setSide tx x.2)

omit [Neg K] [One K] in
/-- A side in the list of sides. -/
private theorem zipWith_set {tx : Direction} (us : List (Ue K H Env In)) (i : ℕ)
    {u : Ue K H Env In} (hu : us[i]? = some u) (p : PhyLayer K × PdcpLayer H) :
    List.zipWith (Ue.setSide tx) us ((us.map fun u => u.side tx).set i p)
      = us.set i (u.setSide tx p) := by
  refine List.ext_getElem? fun j => ?_
  rw [List.getElem?_zipWith, List.getElem?_set, List.getElem?_set, List.getElem?_map,
    List.length_map]
  by_cases hj : i = j
  · have hi : i < us.length := (List.getElem?_eq_some_iff.mp hu).1
    rw [if_pos hj, if_pos hj, if_pos hi, if_pos hi, ← hj, hu]
  · rw [if_neg hj, if_neg hj]
    cases us[j]? with
    | none => rfl
    | some v => simp

/-- A grid with a UE, whose index its blocks say. -/
theorem AboutSide.withUe {tx : Direction} {j : CellGrid K → ℕ}
    {f : ℕ → CellGrid K → Ue K H Env In → Option (CellGrid K × Ue K H Env In)}
    (hf : ∀ n, KeepsTo tx (f n)) :
    AboutSide tx fun s => s.withUe tx (j (s.grid tx)) (f s.ueList.length) := by
  choose k hk using hf
  refine ⟨fun ds x => ds[j x.1]?.bind fun d => x.2[j x.1]?.bind fun p =>
    (k ds.length x.1 d p).map fun y => (y.1, x.2.set (j x.1) y.2), fun ds x y hy => ?_,
    fun s => ?_⟩
  · obtain ⟨d, -, hy⟩ := Option.bind_eq_some_iff.mp hy
    obtain ⟨p, -, hy⟩ := Option.bind_eq_some_iff.mp hy
    obtain ⟨z, -, rfl⟩ := Option.map_eq_some_iff.mp hy
    exact List.length_set
  · simp only [distances, side, List.getElem?_map, List.length_map, Cell.withUe]
    cases hu : s.ueList[j (s.grid tx)]? with
    | none => rfl
    | some u =>
        simp only [Option.bind_some, Option.map_some, hk, Option.map_map]
        refine congrArg (fun m => Option.map m _) (funext fun x => ?_)
        simp only [Function.comp_apply, setSide, zipWith_set s.ueList _ hu x.2]

/-- One thing or the other, as the blocks of the direction say. -/
theorem AboutSide.ite {tx : Direction} {f f' : Cell K H Env In → Option (Cell K H Env In)}
    (c : CellGrid K → Prop) [DecidablePred c] (hf : AboutSide tx f) (hf' : AboutSide tx f') :
    AboutSide tx fun s => if c (s.grid tx) then f s else f' s := by
  obtain ⟨k, hlen, hk⟩ := hf
  obtain ⟨k', hlen', hk'⟩ := hf'
  refine ⟨fun ds x => if c x.1 then k ds x else k' ds x, fun ds x y hy => ?_, fun s => ?_⟩
  · by_cases hc : c x.1
    · exact hlen ds x y ((if_pos hc).symm.trans hy)
    · exact hlen' ds x y ((if_neg hc).symm.trans hy)
  · show (if c (s.grid tx) then f s else f' s)
      = (if c (s.grid tx) then k s.distances (s.side tx) else k' s.distances (s.side tx)).map _
    split
    · exact hk s
    · exact hk' s

variable [LinearOrder K] [Zero K]

private theorem keepsTo_considerUe (tx : Direction) (t f i nUes : ℕ) :
    KeepsTo tx fun (g : CellGrid K) (u : Ue K H Env In) => considerUe tx nUes t f i g u := by
  refine ⟨fun g _ p =>
    if 0 < g.syms then
      let c := p.1.toPhyMetrics.getScheduleCandidate (g.rbGrid t f).f nUes i p.2.hasPkts
      some (g.setRb t f
          { g.rbGrid t f with maxMetric := Rb.consider (g.rbGrid t f).maxMetric c.1 },
        ({ p.1 with toPhyMetrics := c.2 }, p.2))
    else some (g, p), fun g u => ?_⟩
  by_cases h : 0 < g.syms
  · simp only [considerUe, if_pos h, Option.map_some]
    exact congrArg some (Prod.ext rfl (Ue.setPhy_eq u tx _))
  · simp only [considerUe, if_neg h, Option.map_some]
    exact congrArg some (Prod.ext rfl (Ue.setSide_side u tx).symm)

variable [PacketHandler H Env In]

omit [LinearOrder K] [Zero K] in
private theorem keepsTo_serveUe (fuel : ℕ) (tx : Direction) (t f : ℕ) :
    KeepsTo tx (serveUe (K := K) (H := H) fuel tx t f) := by
  refine ⟨fun g d p =>
    (p.2.handlePkt fuel ((g.rbGrid t f).maxMetric.tp * g.syms) (p.1.getMcs (g.rbGrid t f).f)
      (p.1.getSinr (g.rbGrid t f).f) d).map fun y =>
        ((g.setRb t f ((g.rbGrid t f).handlePacket g.syms fun _ _ => y.1)).count t f,
          (p.1, y.2)), fun g u => ?_⟩
  simp only [serveUe, Ue.handlePkt, Ue.side, Option.map_map, Ue.setPdcp_eq]
  rfl

/-- **A call of a grid is about the side of its direction.** -/
theorem aboutSide_gridCall (fuel : ℕ) (tx : Direction) (a : GridCall) :
    AboutSide tx fun s : Cell K H Env In => s.gridCall fuel tx a := by
  cases a with
  | start => exact .own tx fun n g => some (g.start n)
  | hasPackets i =>
      refine .withUe (j := fun _ => i)
        (f := fun _ g u => some (g.countActive (u.hasPackets tx), u)) fun _ => ?_
      refine ⟨fun g _ p => some (g.countActive p.2.hasPkts, p), fun g u => ?_⟩
      exact congrArg some (Prod.ext rfl (Ue.setSide_side u tx).symm)
  | getSyms => exact .own tx fun _ g => g.getSyms
  | estimateParams t f i =>
      exact .withUe (j := fun _ => i) (f := fun n => considerUe tx n t f i)
        (keepsTo_considerUe tx t f i)
  | handlePacket t f =>
      exact .ite (fun g => (g.rbGrid t f).checkUeAssignment.1 = true)
        (.withUe (j := fun g => (g.rbGrid t f).maxMetric.index.toNat)
          (f := fun _ => serveUe fuel tx t f) fun _ => keepsTo_serveUe fuel tx t f)
        (.own tx fun _ g =>
          some ((g.setRb t f ((g.rbGrid t f).handlePacket g.syms fun _ _ => 0)).count t f))
  | finish => exact .own tx fun _ g => some g.finish

/-- **The calls of the two grids can be swapped.** -/
theorem gridCall_independent (fuel : ℕ) :
    Interleave.Independent fun tx (s : Cell K H Env In) a => s.gridCall fuel tx a :=
  fun tx tx' h s a b =>
    (aboutSide_gridCall fuel tx a).comm h (aboutSide_gridCall fuel tx' b) s

omit [LinearOrder K] [Zero K] in
/-- A call of one UE leaves the others. -/
theorem ueCall_eq_some {M : LogMath} {fuel i : ℕ} {s s' : Cell K H Env In} {a : UeCall} :
    ueCall M fuel i s a = some s' ↔ ∃ u u', s.ueList[i]? = some u ∧ u.call M fuel a = some u' ∧
      s' = { s with ueList := s.ueList.set i u' } := by
  simp only [ueCall, Option.bind_eq_some_iff, Option.map_eq_some_iff]
  constructor
  · rintro ⟨u, hu, u', hcall, rfl⟩
    exact ⟨u, u', hu, hcall, rfl⟩
  · rintro ⟨u, u', hu, hcall, rfl⟩
    exact ⟨u, hu, u', hcall, rfl⟩

omit [LinearOrder K] [Zero K] in
/-- **The calls of different UEs can be swapped.** -/
theorem ueCall_independent (M : LogMath) (fuel : ℕ) :
    Interleave.Independent fun i (s : Cell K H Env In) a => s.ueCall M fuel i a := by
  have hswap : ∀ {i j : ℕ}, i ≠ j → ∀ (s s₂ : Cell K H Env In) (a b : UeCall),
      ((ueCall M fuel i s a).bind fun s => ueCall M fuel j s b) = some s₂ →
      ((ueCall M fuel j s b).bind fun s => ueCall M fuel i s a) = some s₂ := by
    intro i j hij s s₂ a b h
    obtain ⟨s₁, h₁, h₂⟩ := Option.bind_eq_some_iff.mp h
    obtain ⟨u, u', hu, hcall, rfl⟩ := ueCall_eq_some.mp h₁
    obtain ⟨v, v', hv, hcall', rfl⟩ := ueCall_eq_some.mp h₂
    rw [List.getElem?_set_ne hij] at hv
    refine Option.bind_eq_some_iff.mpr ⟨_, ueCall_eq_some.mpr ⟨v, v', hv, hcall', rfl⟩,
      ueCall_eq_some.mpr ⟨u, u', ?_, hcall, ?_⟩⟩
    · rw [List.getElem?_set_ne (Ne.symm hij)]
      exact hu
    · rw [List.set_comm _ _ hij]
  intro i j hij s a b
  refine Option.ext fun s₂ => ?_
  exact ⟨hswap hij s s₂ a b, hswap (Ne.symm hij) s s₂ b a⟩

end Cell

end NetworkEmulator.Emulation
