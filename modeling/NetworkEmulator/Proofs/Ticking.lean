/-
The times the simulator is stepped with.

After any number of turns the words the step function was called with are the times it
should have seen, cut to 32 bits (`Ticked`).  They are right as long as no time reaches
2^32 microseconds, which the endless fast mode does at its tick 4294968.

The goal is the duration in microseconds, rounded to a `float` and cut to a whole number, and
the loop compares before a tick.  So it ends after the right tick when no tick falls between
the goal and the exact duration, and does not start at all when the goal is 0.
-/
import NetworkEmulator.Model.Timer

namespace NetworkEmulator

open Rounding

namespace Timer

/-- The times the ticks should have: 1000 microseconds apart, or those of the clock. -/
def expected (doWait : Bool) (elapsed : List ℕ) : List ℕ :=
  if doWait then elapsed else (List.range elapsed.length).map (1000 * ·)

/-! ### What a run has called -/

/-- **What the timer holds after a run.** -/
private structure Ticked (s₀ : Timer) (elapsed : List ℕ) (s : Timer) : Prop where
  doWait : s.doWait = s₀.doWait
  goal : s.goal = s₀.goal
  count : s.count = BitVec.ofNat 32 elapsed.length
  seen : s.seen = (expected s₀.doWait elapsed).map (BitVec.ofNat 32)
  previousTs : s.previousTs = BitVec.ofNat 32 ((expected s₀.doWait elapsed).getLastD 0)

private theorem expected_concat (doWait : Bool) (elapsed : List ℕ) (e : ℕ) :
    expected doWait (elapsed ++ [e]) =
      expected doWait elapsed ++ [if doWait then e else 1000 * elapsed.length] := by
  cases doWait with
  | true => rfl
  | false => simp [expected, List.range_succ]

private theorem Ticked.tick {s₀ s : Timer} {elapsed : List ℕ} (h : Ticked s₀ elapsed s) (e : ℕ) :
    Ticked s₀ (elapsed ++ [e]) (s.tick e) := by
  unfold Timer.tick
  have hcount : s.count + 1 = BitVec.ofNat 32 (elapsed ++ [e]).length := by
    rw [h.count, List.length_append, BitVec.ofNat_add]
    rfl
  by_cases hwait : s₀.doWait = true
  · rw [if_pos (h.doWait.trans hwait)]
    refine { doWait := h.doWait, goal := h.goal, count := hcount, seen := ?_, previousTs := ?_ }
    · show s.seen ++ [getCurrentTs e] = _
      rw [h.seen, expected_concat, if_pos hwait, List.map_append]
      rfl
    · rw [expected_concat, if_pos hwait, List.getLastD_concat]
      rfl
  · have htime : s.count * 1000 = BitVec.ofNat 32 (1000 * elapsed.length) := by
      rw [h.count, Nat.mul_comm, BitVec.ofNat_mul]
      rfl
    rw [if_neg (h.doWait ▸ hwait)]
    refine { doWait := h.doWait, goal := h.goal, count := hcount, seen := ?_, previousTs := ?_ }
    · show s.seen ++ [s.count * 1000] = _
      rw [h.seen, expected_concat, if_neg hwait, List.map_append, htime]
      rfl
    · show s.count * 1000 = _
      rw [expected_concat, if_neg hwait, List.getLastD_concat, htime]

/-- A run of the loop goes on before its last turn. -/
private theorem exec_concat {s₀ s : Timer} {elapsed : List ℕ} {e : ℕ}
    (hrun : s₀.exec (elapsed ++ [e]) = some s) :
    ∃ s₁, s₀.exec elapsed = some s₁ ∧ s₁.goesOn = true ∧ s = s₁.tick e := by
  obtain ⟨s₁, hs₁, hstep⟩ := Runs.runAll_concat.mp hrun
  obtain ⟨hgoes, hs⟩ := Option.ite_none_right_eq_some.mp hstep
  exact ⟨s₁, hs₁, hgoes, (Option.some.inj hs).symm⟩

private theorem ticked_of_exec {s₀ : Timer} (hcount : s₀.count = 0) (hprev : s₀.previousTs = 0)
    (hseen : s₀.seen = []) :
    ∀ {elapsed : List ℕ} {s : Timer}, s₀.exec elapsed = some s → Ticked s₀ elapsed s := by
  intro elapsed
  induction elapsed using List.reverseRecOn with
  | nil =>
      intro s hrun
      obtain rfl := Option.some.inj hrun
      have hnil : expected s₀.doWait [] = [] := by unfold expected; split <;> rfl
      exact { doWait := rfl, goal := rfl, count := hcount, seen := by rw [hseen, hnil]; rfl
              previousTs := by rw [hprev, hnil]; rfl }
  | append_singleton elapsed e ih =>
      intro s hrun
      obtain ⟨s₁, hs₁, -, rfl⟩ := exec_concat hrun
      exact (ih hs₁).tick e

/-- The times of a run are in order. -/
private theorem expected_sorted {doWait : Bool} {elapsed : List ℕ}
    (hclock : doWait = true → elapsed.Pairwise (· ≤ ·)) :
    (expected doWait elapsed).Pairwise (· ≤ ·) := by
  unfold expected
  by_cases hwait : doWait = true
  · rw [if_pos hwait]
    exact hclock hwait
  · rw [if_neg hwait]
    refine List.pairwise_map.mpr (List.pairwise_lt_range.imp fun hlt => ?_)
    exact Nat.mul_le_mul_left 1000 hlt.le

/-- Words in order make times in order. -/
private theorem stepTime_mono {ts ts' : BitVec 32} (hle : ts.toNat ≤ ts'.toNat) :
    stepTime ts ≤ stepTime ts' := by
  refine Format.round_mono (mul_le_mul_of_nonneg_right ?_ (Format.round_nonneg (by norm_num)))
  exact Nat.cast_le.mpr hle

/-! ### When it is right -/

/-- What is asked of the run of a timer. -/
structure Right (period duration : ℚ) (elapsed : List ℕ) (s : Timer) : Prop where
  /-- The step function receives the times of the ticks. -/
  times : s.seen.map BitVec.toNat = expected (0 < period) elapsed
  /-- The time the simulator sees never decreases. -/
  sorted : (s.seen.map stepTime).Pairwise (· ≤ ·)
  /-- A run with a negative duration never ends. -/
  endless : duration < 0 → s.goesOn = true
  /-- A run ends after the first tick whose time is at least the duration. -/
  first : 0 ≤ duration → ∀ t ∈ (expected (0 < period) elapsed).dropLast,
    (t : ℚ) < 1000000 * duration
  ends : 0 ≤ duration → (s.goesOn = false ↔
    ∃ t ∈ (expected (0 < period) elapsed).getLast?, 1000000 * duration ≤ (t : ℚ))

/-- What the times and the duration have to keep to. -/
structure Fits (period duration : ℚ) (elapsed : List ℕ) : Prop where
  times : ∀ t ∈ expected (0 < period) elapsed, t < 2 ^ 32
  finite : 0 ≤ duration → 1 ≤ goalUs duration ∧ ∀ t ∈ expected (0 < period) elapsed,
    (⌊goalUs duration⌋ ≤ (t : ℤ) ↔ 1000000 * duration ≤ (t : ℚ))
  endless : duration < 0 → goalUs duration ≤ -1

section Runs

variable {period duration : ℚ} {s₀ s : Timer} {elapsed : List ℕ}

private theorem create_eq (hcreate : create period duration = some s₀) :
    ∃ goal, intOfReal (goalUs duration) = some goal ∧
      s₀ = { doWait := 0 < period, goal := goal } := by
  obtain ⟨goal, hgoal, hs⟩ := Option.map_eq_some_iff.mp hcreate
  exact ⟨goal, hgoal, hs.symm⟩

private theorem ticked (hcreate : create period duration = some s₀)
    (hrun : s₀.exec elapsed = some s) : Ticked s₀ elapsed s ∧ s₀.doWait = decide (0 < period) := by
  obtain ⟨goal, -, rfl⟩ := create_eq hcreate
  exact ⟨ticked_of_exec rfl rfl rfl hrun, rfl⟩

private theorem toInt_zero : (0 : BitVec 32).toInt = 0 := by decide

private theorem ofInt_of_nonneg {n : ℤ} (h : 0 ≤ n) (hlt : n < 2 ^ 31) :
    (BitVec.ofInt 32 n).slt 0 = false ∧ ((BitVec.ofInt 32 n).toNat : ℤ) = n := by
  constructor
  · rw [BitVec.slt_eq_decide, BitVec.toInt_ofInt, toInt_zero]
    simp only [Int.bmod_def, decide_eq_false_iff_not]
    norm_num
    omega
  · rw [BitVec.toNat_ofInt]
    omega

private theorem ofInt_of_neg {n : ℤ} (h : n < 0) (hge : -2 ^ 31 ≤ n) :
    (BitVec.ofInt 32 n).slt 0 = true := by
  rw [BitVec.slt_eq_decide, BitVec.toInt_ofInt, toInt_zero]
  simp only [Int.bmod_def, decide_eq_true_eq]
  norm_num
  omega

/-- The goal of a duration that is not negative. -/
private theorem goal_of_nonneg (hcreate : create period duration = some s₀) (hpos : 0 ≤ duration) :
    s₀.goal.slt 0 = false ∧ (s₀.goal.toNat : ℤ) = ⌊goalUs duration⌋ := by
  obtain ⟨goal, hgoal, rfl⟩ := create_eq hcreate
  have hD : 0 ≤ goalUs duration := Format.round_nonneg (by positivity)
  have hfloor : 0 ≤ ⌊goalUs duration⌋ := Int.floor_nonneg.mpr hD
  rw [intOfReal, if_pos hD] at hgoal
  obtain ⟨⟨-, hlt⟩, hgoal⟩ := Option.ite_none_right_eq_some.mp hgoal
  obtain rfl := Option.some.inj hgoal
  exact ofInt_of_nonneg hfloor hlt

/-- A negative duration makes an endless run when its goal is a microsecond or more. -/
private theorem goal_of_neg (hcreate : create period duration = some s₀) (hneg : duration < 0) :
    (goalUs duration ≤ -1 → s₀.goal.slt 0 = true) ∧
      (¬ goalUs duration ≤ -1 → s₀.goal = 0) := by
  obtain ⟨goal, hgoal, rfl⟩ := create_eq hcreate
  have hD : goalUs duration ≤ 0 := (Format.round_mono (by linarith)).trans_eq Format.round_zero
  have htrunc : (if 0 ≤ goalUs duration then ⌊goalUs duration⌋ else ⌈goalUs duration⌉) =
      ⌈goalUs duration⌉ := by
    split
    · rename_i hzero
      rw [le_antisymm hD hzero, Int.floor_zero, Int.ceil_zero]
    · rfl
  rw [intOfReal, htrunc] at hgoal
  obtain ⟨⟨hge, -⟩, hgoal⟩ := Option.ite_none_right_eq_some.mp hgoal
  obtain rfl := Option.some.inj hgoal
  refine ⟨fun hle => ofInt_of_neg ?_ hge, fun hgt => ?_⟩
  · have hceil : ⌈goalUs duration⌉ ≤ -1 := Int.ceil_le.mpr (by exact_mod_cast hle)
    omega
  · -- Truncation makes it 0, and the timer runs `ticker` for no time.
    have hceil : ⌈goalUs duration⌉ = 0 := by
      rw [Int.ceil_eq_iff]
      push_cast
      constructor
      · rw [not_le] at hgt
        linarith
      · linarith
    show BitVec.ofInt 32 ⌈goalUs duration⌉ = 0
    rw [hceil]
    rfl

/-- Whether the loop goes on, as long as the times are words. -/
private theorem goesOn_iff (hcreate : create period duration = some s₀)
    (hrun : s₀.exec elapsed = some s) (hpos : 0 ≤ duration)
    (htimes : ∀ t ∈ expected (0 < period) elapsed, t < 2 ^ 32) : s.goesOn = true ↔
      (((expected (0 < period) elapsed).getLastD 0 : ℕ) : ℤ) < ⌊goalUs duration⌋ := by
  obtain ⟨hticked, hwait⟩ := ticked hcreate hrun
  obtain ⟨hslt, hgoal⟩ := goal_of_nonneg hcreate hpos
  have hlast : (expected (0 < period) elapsed).getLastD 0 < 2 ^ 32 := by
    rw [List.getLastD_eq_getLast?]
    cases hl : (expected (0 < period) elapsed).getLast? with
    | none => norm_num
    | some t => exact htimes t (List.mem_of_getLast? hl)
  rw [goesOn, hticked.goal, hslt, if_neg Bool.false_ne_true, hticked.previousTs, hwait,
    BitVec.ult_eq_decide, decide_eq_true_eq, BitVec.toNat_ofNat, Nat.mod_eq_of_lt hlast, ← hgoal]
  exact Nat.cast_lt.symm

/-- The last of a list in order is the largest. -/
private theorem le_getLastD {l : List ℕ} (hsorted : l.Pairwise (· ≤ ·)) {t : ℕ} (ht : t ∈ l) :
    t ≤ l.getLastD 0 := by
  obtain ⟨init, last, rfl⟩ := (List.eq_nil_or_concat l).resolve_left (List.ne_nil_of_mem ht)
  rw [List.concat_eq_append] at ht hsorted ⊢
  rw [List.getLastD_concat]
  rcases List.mem_append.mp ht with ht | ht
  · exact (List.pairwise_append.mp hsorted).2.2 t ht last (List.mem_singleton_self _)
  · exact (List.mem_singleton.mp ht).le

/-- The ticks before the last are before the goal. -/
private theorem before_last (hcreate : create period duration = some s₀)
    (hrun : s₀.exec elapsed = some s) (hpos : 0 ≤ duration)
    (hclock : 0 < period → elapsed.Pairwise (· ≤ ·))
    (htimes : ∀ t ∈ expected (0 < period) elapsed, t < 2 ^ 32) :
    (∀ t ∈ (expected (0 < period) elapsed).dropLast, (t : ℤ) < ⌊goalUs duration⌋) ∧
      (elapsed ≠ [] → 0 < ⌊goalUs duration⌋) := by
  rcases List.eq_nil_or_concat elapsed with rfl | ⟨ticks, e, rfl⟩
  · have hnil : expected (0 < period) [] = [] := by unfold expected; split <;> rfl
    rw [hnil]
    exact ⟨fun t ht => absurd ht List.not_mem_nil, fun hne => absurd rfl hne⟩
  · rw [List.concat_eq_append] at hrun hclock htimes ⊢
    obtain ⟨s₁, hs₁, hgoes, -⟩ := exec_concat hrun
    have hclock₁ : 0 < period → ticks.Pairwise (· ≤ ·) := fun hp =>
      (List.pairwise_append.mp (hclock hp)).1
    have hsorted := expected_sorted fun hp => hclock₁ (of_decide_eq_true hp)
    rw [expected_concat] at htimes ⊢
    have hlt := (goesOn_iff hcreate hs₁ hpos fun t ht =>
      htimes t (List.mem_append_left _ ht)).mp hgoes
    rw [List.dropLast_concat]
    refine ⟨fun t ht => ?_, fun _ => ?_⟩
    · have hle := le_getLastD hsorted ht
      omega
    · omega

private theorem times_iff (hcreate : create period duration = some s₀)
    (hrun : s₀.exec elapsed = some s) : s.seen.map BitVec.toNat = expected (0 < period) elapsed ↔
      ∀ t ∈ expected (0 < period) elapsed, t < 2 ^ 32 := by
  obtain ⟨hticked, hwait⟩ := ticked hcreate hrun
  have hseen : s.seen.map BitVec.toNat =
      (expected (0 < period) elapsed).map fun t => t % 2 ^ 32 := by
    rw [hticked.seen, hwait, List.map_map]
    exact List.map_congr_left fun t _ => BitVec.toNat_ofNat ..
  rw [hseen]
  constructor
  · intro heq t ht
    have hmod : t % 2 ^ 32 = t := List.map_inj_left.mp (heq.trans (List.map_id _).symm) t ht
    omega
  · intro hlt
    conv_rhs => rw [← List.map_id (expected (0 < period) elapsed)]
    exact List.map_congr_left fun t ht => Nat.mod_eq_of_lt (hlt t ht)

private theorem Right.fits (hcreate : create period duration = some s₀)
    (hrun : s₀.exec elapsed = some s) (hclock : 0 < period → elapsed.Pairwise (· ≤ ·))
    (hright : Right period duration elapsed s) : Fits period duration elapsed := by
  have htimes := (times_iff hcreate hrun).mp hright.times
  refine { times := htimes, finite := fun hpos => ?_, endless := fun hneg => ?_ }
  · obtain ⟨hinit, hstarted⟩ := before_last hcreate hrun hpos hclock htimes
    have hgoes := goesOn_iff hcreate hrun hpos htimes
    have hends := hright.ends hpos
    rcases List.eq_nil_or_concat' (expected (0 < period) elapsed) with hnil | ⟨init, last, hlast⟩
    · rw [hnil] at hgoes hends ⊢
      have hgo : s.goesOn = true := by simpa using hends
      have hone : (1 : ℤ) ≤ ⌊goalUs duration⌋ := hgoes.mp hgo
      exact ⟨by exact_mod_cast Int.le_floor.mp hone, fun t ht => absurd ht List.not_mem_nil⟩
    · have hne : elapsed ≠ [] := by
        rintro rfl
        unfold expected at hlast
        split at hlast <;> simp at hlast
      have hone : (1 : ℤ) ≤ ⌊goalUs duration⌋ := hstarted hne
      rw [hlast, List.getLastD_concat] at hgoes
      rw [hlast, List.getLast?_concat] at hends
      rw [hlast, List.dropLast_concat] at hinit
      refine ⟨by exact_mod_cast Int.le_floor.mp hone, fun t ht => ?_⟩
      rw [hlast] at ht
      rcases List.mem_append.mp ht with ht | ht
      · -- The ticks before the last are before both.
        have hbefore : (t : ℚ) < 1000000 * duration :=
          hright.first hpos t (by rw [hlast, List.dropLast_concat]; exact ht)
        exact iff_of_false (not_le.mpr (hinit t ht)) (not_le.mpr hbefore)
      · rw [List.mem_singleton.mp ht, ← not_lt, ← hgoes, Bool.not_eq_true, hends]
        simp
  · by_contra hno
    have hgoal := (goal_of_neg hcreate hneg).2 hno
    have hstop : s.goesOn = false := by
      rw [goesOn, (ticked hcreate hrun).1.goal, hgoal, BitVec.ult_eq_decide]
      simp
    rw [hright.endless hneg] at hstop
    cases hstop

private theorem Fits.right (hcreate : create period duration = some s₀)
    (hrun : s₀.exec elapsed = some s) (hclock : 0 < period → elapsed.Pairwise (· ≤ ·))
    (hfits : Fits period duration elapsed) : Right period duration elapsed s := by
  have htimes := (times_iff hcreate hrun).mpr hfits.times
  have hsorted := expected_sorted fun hp => hclock (of_decide_eq_true hp)
  refine { times := htimes, sorted := ?_, endless := fun hneg => ?_
           first := fun hpos t ht => ?_, ends := fun hpos => ?_ }
  · rw [← htimes, List.pairwise_map] at hsorted
    exact List.pairwise_map.mpr (hsorted.imp stepTime_mono)
  · rw [goesOn, (ticked hcreate hrun).1.goal, (goal_of_neg hcreate hneg).1 (hfits.endless hneg)]
    exact if_pos rfl
  · have hlt := (before_last hcreate hrun hpos hclock hfits.times).1 t ht
    rw [← not_le, ← (hfits.finite hpos).2 t (List.mem_of_mem_dropLast ht)]
    exact not_le.mpr hlt
  · have hgoes := goesOn_iff hcreate hrun hpos hfits.times
    obtain ⟨hone, hbetween⟩ := hfits.finite hpos
    rw [← Bool.not_eq_true, hgoes]
    rcases List.eq_nil_or_concat' (expected (0 < period) elapsed) with hnil | ⟨init, last, hlast⟩
    · have hfloor : (1 : ℤ) ≤ ⌊goalUs duration⌋ := Int.le_floor.mpr (by exact_mod_cast hone)
      rw [hnil]
      simp only [List.getLastD_nil, List.getLast?_nil]
      constructor
      · intro hno
        exact absurd hfloor hno
      · rintro ⟨t, ht, -⟩
        cases ht
    · have hbetween := hbetween last (by rw [hlast]; simp)
      rw [hlast, List.getLastD_concat, List.getLast?_concat, not_lt]
      rw [hbetween]
      simp

end Runs

/-- **When the timer is right.**  For every period and duration whose goal is an `int`, and
every run of any number of ticks over a clock that does not go back: the times, their order
and the end of the run are as they should be exactly when no time of a tick reaches 2^32
microseconds, the goal of a duration that is not negative is at least a microsecond and no
tick falls between the two, and the goal of a negative one is at most minus one. -/
theorem right_iff (period duration : ℚ) (s₀ s : Timer) (elapsed : List ℕ)
    (hcreate : create period duration = some s₀) (hrun : s₀.exec elapsed = some s)
    (hclock : 0 < period → elapsed.Pairwise (· ≤ ·)) :
    Right period duration elapsed s ↔ Fits period duration elapsed :=
  ⟨fun hright => hright.fits hcreate hrun hclock, fun hfits => hfits.right hcreate hrun hclock⟩

/-- The goal of 1075 seconds is 64 microseconds late. -/
example : goalUs 1075 = 1075000064 := by decide +kernel

/-- A run of three seconds in real time. -/
theorem right_three : ∃ s₀ s, create 1 3 = some s₀ ∧ s₀.exec [0, 1100000, 3000500] = some s ∧
    s.goesOn = false ∧ Right 1 3 [0, 1100000, 3000500] s := by
  let s₀ := (create 1 3).getD { doWait := false, goal := 0 }
  let s := (s₀.exec [0, 1100000, 3000500]).getD s₀
  have hcreate : create 1 3 = some s₀ := by decide +kernel
  have hrun : s₀.exec [0, 1100000, 3000500] = some s := by decide +kernel
  refine ⟨s₀, s, hcreate, hrun, by decide +kernel, ?_⟩
  refine (right_iff 1 3 s₀ s [0, 1100000, 3000500] hcreate hrun fun _ => by decide).mpr ?_
  exact { times := by decide +kernel, finite := fun _ => by decide +kernel
          endless := fun hneg => absurd hneg (by norm_num) }

private theorem exec_endless {s₀ : Timer} (hgoal : s₀.goal.slt 0 = true) (hcount : s₀.count = 0)
    (hprev : s₀.previousTs = 0) (hseen : s₀.seen = []) :
    ∀ elapsed : List ℕ, ∃ s, s₀.exec elapsed = some s := by
  intro elapsed
  induction elapsed using List.reverseRecOn with
  | nil => exact ⟨s₀, rfl⟩
  | append_singleton elapsed e ih =>
      obtain ⟨s, hs⟩ := ih
      have hgoes : s.goesOn = true := by
        rw [goesOn, (ticked_of_exec hcount hprev hseen hs).goal, hgoal, if_pos rfl]
      exact ⟨s.tick e, Runs.runAll_concat.mpr ⟨s, hs, if_pos hgoes⟩⟩

private theorem getElem?_expected_fast {elapsed : List ℕ} {i : ℕ} (hi : i < elapsed.length) :
    (expected false elapsed)[i]? = some (1000 * i) := by
  simp [expected, hi]

private theorem seen_fast {s₀ s : Timer} {elapsed : List ℕ} (h : Ticked s₀ elapsed s)
    (hwait : s₀.doWait = false) {i : ℕ} (hi : i < elapsed.length) :
    s.seen[i]?.map BitVec.toNat = some (1000 * i % 2 ^ 32) := by
  rw [h.seen, hwait, List.getElem?_map, getElem?_expected_fast hi, Option.map_some, Option.map_some,
    BitVec.toNat_ofNat]

/-- In the endless fast mode the time falls from 4294967000 back to 704. -/
theorem right_wraps : ∃ s₀ s, create (-1) (-1) = some s₀ ∧
    s₀.exec (List.replicate 4294969 0) = some s ∧
    s.seen[4294967]?.map BitVec.toNat = some 4294967000 ∧
    s.seen[4294968]?.map BitVec.toNat = some 704 ∧
    ¬ Right (-1) (-1) (List.replicate 4294969 0) s := by
  let s₀ : Timer := { doWait := false, goal := BitVec.ofInt 32 (-1000000) }
  have hcreate : create (-1) (-1) = some s₀ := by decide +kernel
  have hendless : s₀.goal.slt 0 = true := by decide
  obtain ⟨s, hrun⟩ := exec_endless hendless rfl rfl rfl (List.replicate 4294969 0)
  have hticked := ticked_of_exec rfl rfl rfl hrun
  have hlength : 4294968 < (List.replicate 4294969 0).length := by
    rw [List.length_replicate]
    norm_num
  have hlast := seen_fast hticked rfl hlength
  refine ⟨s₀, s, hcreate, hrun, seen_fast hticked rfl ((Nat.lt_succ_self _).trans hlength), hlast,
    fun hright => ?_⟩
  have hfast : decide ((0 : ℚ) < -1) = false := by norm_num
  have htimes := congrArg (·[4294968]?) hright.times
  simp only [List.getElem?_map] at htimes
  rw [hlast, hfast, getElem?_expected_fast hlength] at htimes
  norm_num at htimes

end Timer

end NetworkEmulator
