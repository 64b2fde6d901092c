/-
UEs stay inside their area.

Every model refuses a step that leaves the area, or, going in circles, keeps its distance
and tests the apothem.  What is left is where the UE begins: the constructor cuts a fixed
position to the apothem and does not compare its distance with the limit, so a UE that
begins too far out is outside from the start, and no other one ever is.
-/
import NetworkEmulator.Model.Mobility

namespace NetworkEmulator

open scoped Numerals

namespace CMath

variable {K : Type} [Field K] [LinearOrder K] [IsStrictOrderedRing K] (M : CMath K)

theorem sqrt_eq {x r : K} (hr : 0 ≤ r) (hx : x = r * r) : M.sqrt x = r := by
  have hsq := M.sqrt_mul_self x (by rw [hx]; exact mul_self_nonneg r)
  rw [hx, mul_self_inj (M.sqrt_nonneg _) hr] at hsq
  rw [hx]
  exact hsq

/-- A point on a circle is as far out as the circle is wide. -/
theorem getDistance_circle {r : K} (hr : 0 ≤ r) (a : K) :
    Pos2d.getDistance M ⟨r * M.cos a, r * M.sin a⟩ = r := by
  refine M.sqrt_eq hr ?_
  calc r * M.cos a * (r * M.cos a) + r * M.sin a * (r * M.sin a)
      = r * r * (M.cos a * M.cos a + M.sin a * M.sin a) := by ring
    _ = r * r := by rw [M.cos_sin, mul_one]

end CMath

namespace MobilityModel

section Field

variable {K : Type} [Field K] [LinearOrder K] [IsStrictOrderedRing K] (M : CMath K)

/-- The UE is inside its area. -/
structure Inside (m : MobilityModel K) : Prop where
  x : |m.currentPos.x| ≤ m.maxApothem
  y : |m.currentPos.y| ≤ m.maxApothem
  distance : m.currentPos.getDistance M ≤ m.maxDistance

/-- The UE is inside, and so is the circle it may go on. -/
structure Bounded (m : MobilityModel K) : Prop where
  inside : Inside M m
  radius_nonneg : 0 ≤ m.radius
  radius_le : m.radius ≤ m.maxDistance

/-- Place, limits and circle are the same. -/
structure SamePlace (m m' : MobilityModel K) : Prop where
  currentPos : m'.currentPos = m.currentPos
  maxApothem : m'.maxApothem = m.maxApothem
  maxDistance : m'.maxDistance = m.maxDistance
  radius : m'.radius = m.radius

variable {M} {m m' : MobilityModel K}

omit [IsStrictOrderedRing K] in
theorem Bounded.of_samePlace (h : Bounded M m) (hs : SamePlace m m') : Bounded M m' where
  inside :=
    { x := by rw [hs.currentPos, hs.maxApothem]; exact h.inside.x
      y := by rw [hs.currentPos, hs.maxApothem]; exact h.inside.y
      distance := by rw [hs.currentPos, hs.maxDistance]; exact h.inside.distance }
  radius_nonneg := by rw [hs.radius]; exact h.radius_nonneg
  radius_le := by rw [hs.radius, hs.maxDistance]; exact h.radius_le

omit [IsStrictOrderedRing K] in
/-- A step that is admitted stays inside. -/
theorem Bounded.step (h : Bounded M m) {p : Pos2d K} (hp : m.Admits M p) :
    Bounded M { m with currentPos := p } where
  inside := ⟨hp.2.1, hp.2.2, hp.1⟩
  radius_nonneg := h.radius_nonneg
  radius_le := h.radius_le

/-! ### The steps of the models -/

omit [LinearOrder K] [IsStrictOrderedRing K] in
theorem turn_samePlace (m : MobilityModel K) : SamePlace m m.turn := ⟨rfl, rfl, rfl, rfl⟩

omit [IsStrictOrderedRing K] in
theorem Bounded.walkOn (h : Bounded M m) (t : K) : Bounded M (m.walkOn M t) := by
  unfold MobilityModel.walkOn
  split
  · exact h.of_samePlace (turn_samePlace m)
  · rename_i dir _
    by_cases hp : m.Admits M (m.currentPos.moved dir ((t - m.pastT) * m.speed))
    · simp only [if_pos hp]
      exact h.step hp
    · simp only [if_neg hp]
      exact h.of_samePlace (turn_samePlace m)

omit [IsStrictOrderedRing K] in
theorem Bounded.driftOn (h : Bounded M m) (t : K) : Bounded M (m.driftOn M t) := by
  have hstop : Bounded M { m with speed := 0 } := h.of_samePlace ⟨rfl, rfl, rfl, rfl⟩
  unfold MobilityModel.driftOn
  split
  · exact hstop
  · rename_i dir _
    by_cases hp : m.Admits M (m.currentPos.moved dir ((t - m.pastT) * m.speed))
    · simp only [if_pos hp]
      exact h.step hp
    · simp only [if_neg hp]
      exact hstop

/-- On a circle the distance is the radius, and the apothem is tested. -/
theorem Bounded.circleOn (h : Bounded M m) (t : K) : Bounded M (m.circleOn M t) := by
  unfold MobilityModel.circleOn
  by_cases hr : m.radius = 0
  · rw [if_pos hr]
    exact h.of_samePlace ⟨rfl, rfl, rfl, rfl⟩
  · rw [if_neg hr]
    have hdist := M.getDistance_circle h.radius_nonneg
      (wrapAngle M (m.angle - m.speed / m.radius * (t - m.pastT)))
    simp only
    split
    · rename_i hp
      exact
        { inside := ⟨hp.1, hp.2, hdist.trans_le h.radius_le⟩
          radius_nonneg := h.radius_nonneg
          radius_le := h.radius_le }
    · exact h.of_samePlace ⟨rfl, rfl, rfl, rfl⟩

/-! ### Updates and runs -/

section Renew

omit [IsStrictOrderedRing K]

theorem renewSpeed_samePlace (m : MobilityModel K) : SamePlace m m.renewSpeed :=
  ⟨rfl, rfl, rfl, rfl⟩

theorem renewWalk_samePlace (M : CMath K) (m : MobilityModel K) : SamePlace m (m.renewWalk M) :=
  ⟨rfl, rfl, rfl, rfl⟩

theorem renewWaypoint_samePlace (M : CMath K) (m : MobilityModel K) :
    SamePlace m (m.renewWaypoint M) := ⟨rfl, rfl, rfl, rfl⟩

theorem renewManhattan_samePlace (m : MobilityModel K) : SamePlace m m.renewManhattan :=
  ⟨rfl, rfl, rfl, rfl⟩

end Renew

omit [IsStrictOrderedRing K] in
/-- An update keeps what its step keeps, if it renews speed and direction only. -/
theorem Bounded.updateWith {renew : MobilityModel K → MobilityModel K}
    {step : MobilityModel K → K → MobilityModel K} (hrenew : ∀ m, SamePlace m (renew m))
    (hstep : ∀ {m}, Bounded M m → ∀ t, Bounded M (step m t)) (h : Bounded M m) (t : K) :
    Bounded M (updateWith renew step m t) := by
  have hfirst : Bounded M (if m.tTarget ≤ t then renew m else m) := by
    by_cases hup : m.tTarget ≤ t
    · rw [if_pos hup]
      exact h.of_samePlace (hrenew m)
    · rw [if_neg hup]
      exact h
  have hboth {n : MobilityModel K} (hn : Bounded M n) :
      Bounded M (if 0 < n.pastT then step n t else n) := by
    by_cases hpast : 0 < n.pastT
    · rw [if_pos hpast]
      exact hstep hn t
    · rw [if_neg hpast]
      exact hn
  exact (hboth hfirst).of_samePlace ⟨rfl, rfl, rfl, rfl⟩

/-- **No update leaves the area.** -/
theorem Bounded.updatePos (h : Bounded M m) (t : K) : Bounded M (m.updatePos M t) := by
  unfold MobilityModel.updatePos
  cases m.type with
  | static => exact h
  | randomWalk => exact h.updateWith (renewWalk_samePlace M) (fun hm => hm.walkOn) t
  | randomWaypoint => exact h.updateWith (renewWaypoint_samePlace M) (fun hm => hm.walkOn) t
  | randomManhattan => exact h.updateWith renewManhattan_samePlace (fun hm => hm.walkOn) t
  | linearDrift => exact h.updateWith renewSpeed_samePlace (fun hm => hm.driftOn) t
  | clockwise => exact h.updateWith renewSpeed_samePlace (fun hm => hm.circleOn) t

/-- The UE after updates at these times. -/
def after (M : CMath K) (m : MobilityModel K) (ts : List K) : MobilityModel K :=
  ts.foldl (updatePos M) m

theorem Bounded.after (h : Bounded M m) (ts : List K) : Bounded M (m.after M ts) := by
  induction ts generalizing m with
  | nil => exact h
  | cons t ts ih => exact ih (h.updatePos t)

/-! ### Where the UE begins -/

/-- The fixed position the constructor begins at. -/
def startPos (maxApothem : K) (p : Pos2d K) : Pos2d K :=
  ⟨clampCoordinate maxApothem p.x, clampCoordinate maxApothem p.y⟩

theorem abs_clampCoordinate_le {maxApothem : K} (h : 0 ≤ maxApothem) (x : K) :
    |clampCoordinate maxApothem x| ≤ maxApothem := by
  have hmin : |min |x| maxApothem| ≤ maxApothem := by
    rw [abs_of_nonneg (le_min (abs_nonneg x) h)]
    exact min_le_right _ _
  unfold clampCoordinate
  by_cases hneg : x < 0
  · rw [if_pos hneg, mul_neg_one, abs_neg]
    exact hmin
  · rw [if_neg hneg, mul_one]
    exact hmin

/-- **A UE with a fixed position is bounded exactly when that is not too far out.** -/
theorem make_bounded_iff (M : CMath K) {c : MobilityConfig K} (hfixed : c.randomInit = false)
    {maxApothem : K} (hpos : 0 ≤ maxApothem) (u : ℕ → K) (l : ℕ → Fin 4) :
    (Inside M (make M c maxApothem u l) → (startPos maxApothem c.initPos).getDistance M
        ≤ c.maxDistance) ∧
      ((startPos maxApothem c.initPos).getDistance M ≤ c.maxDistance →
        Bounded M (make M c maxApothem u l)) := by
  unfold make
  simp only [hfixed, Bool.false_eq_true, if_false]
  refine ⟨fun h => h.distance, fun h => ⟨⟨?_, ?_, h⟩, M.sqrt_nonneg _, h⟩⟩
  · exact abs_clampCoordinate_le hpos _
  · exact abs_clampCoordinate_le hpos _

end Field

/-- **The UE is inside its area after its construction and after every update exactly when
its position, cut to the apothem, is not farther out than the limit of its scenario and
configuration.** -/
theorem stays_inside_iff (M : CMath ℝ) (c : MobilityConfig ℝ) (hfixed : c.randomInit = false)
    (scenario : Scenario) (maxApothem : ℝ) (hpos : 0 ≤ maxApothem) (u : ℕ → ℝ) (l : ℕ → Fin 4) :
    (∀ ts, Inside M ((create M c scenario maxApothem u l).after M ts)) ↔
      (startPos maxApothem c.initPos).getDistance M ≤ limitDistance c.maxDistance scenario := by
  obtain ⟨hinside, hbounded⟩ := make_bounded_iff M
    (c := { c with
      maxDistance := limitDistance c.maxDistance scenario
      speed := limitSpeed c.speed scenario }) hfixed hpos u l
  exact ⟨fun h => hinside (h []), fun h ts => ((hbounded h).after ts).inside⟩

/-- The functions of real analysis. -/
noncomputable def realMath : CMath ℝ where
  sqrt := Real.sqrt
  cos := Real.cos
  sin := Real.sin
  atan2 y x := Complex.arg ⟨x, y⟩
  pi := Real.pi
  sqrt_nonneg := Real.sqrt_nonneg
  sqrt_mul_self _ h := Real.mul_self_sqrt h
  cos_sin a := by nlinarith [Real.sin_sq_add_cos_sq a]

/-- A UE that begins three by four from the origin. -/
noncomputable def threeByFour (type : MobilityType) (maxDistance : ℝ) : MobilityConfig ℝ :=
  ⟨type, ⟨3, 4⟩, false, 1, 0, maxDistance, 1, 0⟩

private theorem getDistance_threeByFour (type : MobilityType) (maxDistance : ℝ) :
    (startPos 10 (threeByFour type maxDistance).initPos).getDistance realMath = 5 := by
  have hx : clampCoordinate (10 : ℝ) 3 = 3 := by norm_num [clampCoordinate]
  have hy : clampCoordinate (10 : ℝ) 4 = 4 := by norm_num [clampCoordinate]
  unfold Pos2d.getDistance startPos threeByFour
  rw [hx, hy]
  exact realMath.sqrt_eq (by norm_num) (by norm_num)

/-- It goes in circles of radius five for ever when it may be as far out as that. -/
theorem stays_inside_circle :
    (0 : ℝ) ≤ 10 ∧ ∀ ts, Inside realMath ((create realMath (threeByFour .clockwise 5)
      .urbanMacrocell 10 (fun _ => 0) fun _ => 0).after realMath ts) := by
  have hpos : (0 : ℝ) ≤ 10 := by norm_num
  refine ⟨hpos, (stays_inside_iff realMath _ rfl .urbanMacrocell 10 hpos _ _).mpr ?_⟩
  rw [getDistance_threeByFour]
  norm_num [limitDistance, threeByFour]

/-- It stands still outside when it may only be four from the origin. -/
theorem starts_outside :
    ¬∀ ts, Inside realMath ((create realMath (threeByFour .static 4) .urbanMacrocell 10
      (fun _ => 0) fun _ => 0).after realMath ts) := by
  intro h
  have hdist := (h []).distance
  have hfive := getDistance_threeByFour .static 4
  have hle : (5 : ℝ) ≤ min 4 5000 := hfive ▸ hdist
  norm_num at hle

end MobilityModel

end NetworkEmulator
