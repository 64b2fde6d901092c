/-
How UEs move, `src/mobility_models/`.

Every model of mobility is the base class with its own `update_pos`: first the speed, and
for some models the direction, is renewed when its time is up, then the UE makes a step,
and each model has its own test for the step and its own reaction when it is refused.

The mathematical functions of the C library are given with the laws the code relies on, so
that a run can be followed wherever there are such functions.  A division by a distance of
zero gives values that compare with nothing; a direction of that kind is `none` here, and
the tests refuse a step along it.
-/
import Mathlib
import NetworkEmulator.Library.Numerals

namespace NetworkEmulator

open scoped Numerals

/-- The functions of `cmath`: any pair with unit square sum will do for sine and cosine. -/
structure CMath (K : Type) [Field K] [LinearOrder K] where
  sqrt : K → K
  cos : K → K
  sin : K → K
  atan2 : K → K → K
  pi : K
  sqrt_nonneg : ∀ x, 0 ≤ sqrt x
  sqrt_mul_self : ∀ x, 0 ≤ x → sqrt x * sqrt x = x
  cos_sin : ∀ a, cos a * cos a + sin a * sin a = 1

/-- `pos2d`. -/
structure Pos2d (K : Type) where
  x : K
  y : K
  deriving DecidableEq, Repr

/-- The types of `mobility_config.h`. -/
inductive MobilityType where
  | static
  | randomWalk
  | randomWaypoint
  | randomManhattan
  | linearDrift
  | clockwise
  deriving DecidableEq, Repr

/-- The scenarios of `phy_l_definitions.h`. -/
inductive Scenario where
  | urbanMicrocell
  | urbanMacrocell
  | ruralMacrocell
  | indoorOpenOffice
  | indoorMixedOffice
  | indoorShoppingMall
  deriving DecidableEq, Repr

/-- `mobility_config`. -/
structure MobilityConfig (K : Type) where
  type : MobilityType
  initPos : Pos2d K
  randomInit : Bool
  speed : K
  speedVar : K
  maxDistance : K
  timeTarget : K
  timeTargetVar : K

/-- `mobility_model_base`, with the radius and the angle `clockwise_model` adds.
`uniformDist` and `listDist` are the draws still to come. -/
structure MobilityModel (K : Type) where
  type : MobilityType
  currentPos : Pos2d K
  speed : K
  speedVar : K
  currentDir : Option (Pos2d K)
  maxDistance : K
  maxApothem : K
  timeTarget : K
  timeTargetVar : K
  tTarget : K
  pastT : K
  radius : K
  angle : K
  uniformDist : ℕ → K
  listDist : ℕ → Fin 4

section Model

variable {K : Type} [Field K] [LinearOrder K] (M : CMath K)

namespace Pos2d

/-- `get_distance`, from the origin. -/
def getDistance (p : Pos2d K) : K := M.sqrt (p.x * p.x + p.y * p.y)

/-- `operator/` with the distance of the position itself. -/
def direction (p : Pos2d K) : Option (Pos2d K) :=
  if p.getDistance M = 0 then none else some ⟨p.x / p.getDistance M, p.y / p.getDistance M⟩

/-- `operator+` and `operator*`. -/
def moved (p dir : Pos2d K) (way : K) : Pos2d K := ⟨p.x + dir.x * way, p.y + dir.y * way⟩

end Pos2d

namespace MobilityModel

/-- `limit_distance`. -/
def limitDistance (distance : K) : Scenario → K
  | .ruralMacrocell | .urbanMacrocell | .urbanMicrocell => min distance 5000
  | .indoorOpenOffice | .indoorMixedOffice => min distance 150
  | .indoorShoppingMall => min distance 600

/-- `limit_speed`. -/
def limitSpeed (speed : K) : Scenario → K
  | .ruralMacrocell => min speed (120 * (1000 / 3600))
  | _ => min speed (3 * (1000 / 3600))

/-- The coordinate of the initial position the constructor takes for `x`. -/
def clampCoordinate (maxApothem x : K) : K := min |x| maxApothem * (if x < 0 then -1 else 1)

/-- The attempts of `set_random_initial_position`, and the draws they leave. -/
def attemptPosition (maxDistance maxApothem : K) : ℕ → (ℕ → K) → Option (Pos2d K) × (ℕ → K)
  | 0, draws => (none, draws)
  | n + 1, draws =>
    let radius := |draws 0 * maxDistance|
    let theta := |draws 1 * 2 * M.pi|
    let new : Pos2d K := ⟨radius * M.cos theta, radius * M.sin theta⟩
    let draws := fun i => draws (i + 2)
    if |new.x| ≤ maxApothem ∧ |new.y| ≤ maxApothem ∧ 10 < new.getDistance M then (some new, draws)
    else attemptPosition maxDistance maxApothem n draws

/-- The constructor of the model with this type, given what the random sources answer. -/
def make (c : MobilityConfig K) (maxApothem : K) (uniformDist : ℕ → K) (listDist : ℕ → Fin 4) :
    MobilityModel K :=
  let (pos, draws) :=
    if c.randomInit then
      let (pos, draws) := attemptPosition M c.maxDistance maxApothem 100 uniformDist
      (pos.getD ⟨0, 0⟩, draws)
    else
      (⟨clampCoordinate maxApothem c.initPos.x, clampCoordinate maxApothem c.initPos.y⟩,
        uniformDist)
  { type := c.type
    currentPos := pos
    speed := c.speed
    speedVar := c.speedVar
    currentDir := some ⟨0, 0⟩
    maxDistance := c.maxDistance
    maxApothem := maxApothem
    timeTarget := c.timeTarget
    timeTargetVar := c.timeTargetVar
    tTarget := 0
    pastT := 0
    radius := pos.getDistance M
    angle := M.atan2 pos.y pos.x
    uniformDist := draws
    listDist := listDist }

/-- The constructor of `mobility_model`, which limits distance and speed first. -/
def create (c : MobilityConfig K) (scenario : Scenario) (maxApothem : K) (uniformDist : ℕ → K)
    (listDist : ℕ → Fin 4) : MobilityModel K :=
  make M { c with
    maxDistance := limitDistance c.maxDistance scenario
    speed := limitSpeed c.speed scenario } maxApothem uniformDist listDist

/-- `dirs`: up, down, right and left. -/
def dirs : Fin 4 → Pos2d K
  | 0 => ⟨0, 1⟩
  | 1 => ⟨0, -1⟩
  | 2 => ⟨1, 0⟩
  | 3 => ⟨-1, 0⟩

/-- The test all models but one make before a step. -/
def Admits (m : MobilityModel K) (p : Pos2d K) : Prop :=
  p.getDistance M ≤ m.maxDistance ∧ |p.x| ≤ m.maxApothem ∧ |p.y| ≤ m.maxApothem

instance (m : MobilityModel K) (p : Pos2d K) : Decidable (m.Admits M p) :=
  inferInstanceAs (Decidable (_ ∧ _ ∧ _))

/-- The new speed and the time it is for. -/
def renewSpeed (m : MobilityModel K) : MobilityModel K :=
  let var := m.uniformDist 0 * m.speedVar
  { m with
    speed := m.speed + var
    tTarget := m.tTarget + (m.timeTarget + |var * m.timeTargetVar|)
    uniformDist := fun i => m.uniformDist (i + 1) }

/-- A direction from `dirs`, by chance. -/
def turn (m : MobilityModel K) : MobilityModel K :=
  { m with currentDir := some (dirs (m.listDist 0)), listDist := fun i => m.listDist (i + 1) }

/-- The step of the random models: a refused one makes them turn. -/
def walkOn (m : MobilityModel K) (currentT : K) : MobilityModel K :=
  match m.currentDir with
  | none => m.turn
  | some dir =>
    let next := m.currentPos.moved dir ((currentT - m.pastT) * m.speed)
    if m.Admits M next then { m with currentPos := next } else m.turn

/-- `random_walk_model::update_pos`: what happens when the time is up. -/
def renewWalk (m : MobilityModel K) : MobilityModel K :=
  let m := m.renewSpeed
  { m with
    currentDir := Pos2d.direction M ⟨m.uniformDist 0, m.uniformDist 1⟩
    uniformDist := fun i => m.uniformDist (i + 2) }

/-- `random_waypoint_model::update_pos`: what happens when the time is up. -/
def renewWaypoint (m : MobilityModel K) : MobilityModel K :=
  let m := m.renewSpeed
  let radius := |m.uniformDist 0 * m.maxDistance|
  let theta := |m.uniformDist 1 * 2 * M.pi|
  { m with
    currentDir := Pos2d.direction M ⟨radius * M.cos theta, radius * M.sin theta⟩
    uniformDist := fun i => m.uniformDist (i + 2) }

/-- `manhattan_model::update_pos`: what happens when the time is up. -/
def renewManhattan (m : MobilityModel K) : MobilityModel K := m.renewSpeed.turn

/-- The step of `linear_drift_model::update_pos`: a refused one stops the UE. -/
def driftOn (m : MobilityModel K) (currentT : K) : MobilityModel K :=
  match m.currentPos.direction M with
  | none => { m with speed := 0 }
  | some dir =>
    let next := m.currentPos.moved dir ((currentT - m.pastT) * m.speed)
    if m.Admits M next then { m with currentPos := next } else { m with speed := 0 }

/-- The two tests that keep an angle between `-π` and `π`. -/
def wrapAngle (angle : K) : K :=
  let angle := if angle < -M.pi then angle + 2 * M.pi else angle
  if M.pi < angle then angle - 2 * M.pi else angle

/-- The step of `clockwise_model::update_pos`, which tests the apothem only.  At radius 0 the
angle is no number from then on, and every step is refused. -/
def circleOn (m : MobilityModel K) (currentT : K) : MobilityModel K :=
  if m.radius = 0 then { m with speed := 0 }
  else
    let omega := m.speed / m.radius
    let angle := wrapAngle M (m.angle - omega * (currentT - m.pastT))
    let next : Pos2d K := ⟨m.radius * M.cos angle, m.radius * M.sin angle⟩
    if |next.x| ≤ m.maxApothem ∧ |next.y| ≤ m.maxApothem then
      { m with angle := angle, currentPos := next }
    else { m with angle := angle, speed := 0 }

/-- What all `update_pos` have in common: something is renewed when its time is up, a step is
made once a positive time is remembered, and then this time is. -/
def updateWith (renew : MobilityModel K → MobilityModel K)
    (step : MobilityModel K → K → MobilityModel K) (m : MobilityModel K) (currentT : K) :
    MobilityModel K :=
  let m := if m.tTarget ≤ currentT then renew m else m
  let m := if 0 < m.pastT then step m currentT else m
  { m with pastT := currentT }

/-- `update_pos`, which the models override. -/
def updatePos (m : MobilityModel K) (currentT : K) : MobilityModel K :=
  match m.type with
  | .static => m
  | .randomWalk => updateWith (renewWalk M) (walkOn M) m currentT
  | .randomWaypoint => updateWith (renewWaypoint M) (walkOn M) m currentT
  | .randomManhattan => updateWith renewManhattan (walkOn M) m currentT
  | .linearDrift => updateWith renewSpeed (driftOn M) m currentT
  | .clockwise => updateWith renewSpeed (circleOn M) m currentT

end MobilityModel

end Model

end NetworkEmulator
