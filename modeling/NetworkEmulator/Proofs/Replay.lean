/-
What the traffic generator makes of a trace.

The periodic repetition of a trace is a sequence of occurrences, each with its time, and with
the time the reader gives it, its stamp: the offset of a pass is a `float`, and so the stamps
are rounded, and stop growing where the last record is small against the offset.  A reader
that has read `j` records is in one state only, `reading trace j`, whatever calls brought it
there, and a call at `t` leaves it having read every occurrence before the first whose stamp
is past `t`, and that one.

On the first pass that one waits for the call that reaches its time.  On the later passes its
time is compared before the offset of the pass is added, so it is counted at once, and counted
again by the call that reaches its stamp.  What the calls return is right exactly when these
errors and those of rounding cancel: `generate_total_iff`.
-/
import NetworkEmulator.Model.TrafficGenerator

namespace NetworkEmulator

open Rounding

namespace Trace

/-! ### The periodic repetition -/

/-- The time of the last record. -/
def period (trace : List (ℚ × ℚ)) : ℚ := (trace.map Prod.fst).getLastD 0

/-- What is said of a trace: `double`s and `float`s, non-decreasing times, the first at least
0, the last above. -/
structure WellTimed (trace : List (ℚ × ℚ)) : Prop where
  holds : ∀ r ∈ trace, binary64.Holds r.1 ∧ binary32.Holds r.2
  sorted : trace.Pairwise fun r s => r.1 ≤ s.1
  first : ∀ r ∈ trace.head?, 0 ≤ r.1
  pos : 0 < period trace

/-- The occurrences of the records in the first passes, in order. -/
def occurrences (trace : List (ℚ × ℚ)) (passes : ℕ) : List (ℚ × ℚ) :=
  (List.range passes).flatMap fun (k : ℕ) => trace.map fun r => (r.1 + k * period trace, r.2)

/-- The bytes of the occurrences whose time is at most `T`: none is in a later pass. -/
def due (trace : List (ℚ × ℚ)) (T : ℚ) : ℚ :=
  (((occurrences trace (⌊T / period trace⌋₊ + 1)).filter (·.1 ≤ T)).map Prod.snd).sum

/-- The time of occurrence `j`. -/
def time (trace : List (ℚ × ℚ)) (j : ℕ) : ℚ :=
  (trace.getD (j % trace.length) (0, 0)).1 + (j / trace.length : ℕ) * period trace

/-- The bytes of occurrence `j`. -/
def bytes (trace : List (ℚ × ℚ)) (j : ℕ) : ℚ := (trace.getD (j % trace.length) (0, 0)).2

/-- The offset of the pass after one with the offset `d`. -/
def nextOffset (trace : List (ℚ × ℚ)) (d : ℚ) : ℚ :=
  binary32.store (binary64.store (period trace + d))

/-- The offset of pass `k`. -/
def offset (trace : List (ℚ × ℚ)) (k : ℕ) : ℚ := (nextOffset trace)^[k] 0

/-- The time the reader gives occurrence `j`. -/
def stamp (trace : List (ℚ × ℚ)) (j : ℕ) : ℚ :=
  binary64.store ((trace.getD (j % trace.length) (0, 0)).1 + offset trace (j / trace.length))

/-- Some occurrence has a stamp past `t`. -/
def Passes (trace : List (ℚ × ℚ)) (t : ℚ) : Prop := ∃ j, t < stamp trace j

/-- The first occurrence whose stamp is past `t`. -/
noncomputable def reached (trace : List (ℚ × ℚ)) (t : ℚ) : ℕ := sInf {j | t < stamp trace j}

section Occurrences

variable {trace : List (ℚ × ℚ)}

theorem WellTimed.length_pos (h : WellTimed trace) : 0 < trace.length := by
  rcases trace with _ | ⟨r, rest⟩
  · exact absurd h.pos (lt_irrefl 0)
  · exact Nat.succ_pos _

private theorem time_pass {k i : ℕ} (hi : i < trace.length) :
    time trace (k * trace.length + i) = (trace.getD i (0, 0)).1 + k * period trace := by
  have hn : 0 < trace.length := Nat.zero_lt_of_lt hi
  have hmod : (k * trace.length + i) % trace.length = i := by
    rw [Nat.mul_add_mod', Nat.mod_eq_of_lt hi]
  have hdiv : (k * trace.length + i) / trace.length = k := by
    rw [Nat.mul_comm, Nat.mul_add_div hn, Nat.div_eq_of_lt hi, Nat.add_zero]
  rw [time, hmod, hdiv]

private theorem bytes_pass {k i : ℕ} (hi : i < trace.length) :
    bytes trace (k * trace.length + i) = (trace.getD i (0, 0)).2 := by
  rw [bytes, Nat.mul_add_mod', Nat.mod_eq_of_lt hi]

/-- The times of a trace, from the first to the last. -/
theorem WellTimed.getD_le (h : WellTimed trace) {i j : ℕ} (hij : i ≤ j) (hj : j < trace.length) :
    (trace.getD i (0, 0)).1 ≤ (trace.getD j (0, 0)).1 := by
  rcases hij.lt_or_eq with hlt | rfl
  · have := List.pairwise_iff_getElem.mp h.sorted i j (hlt.trans hj) hj hlt
    rwa [List.getD_eq_getElem _ _ hj, List.getD_eq_getElem _ _ (hlt.trans hj)]
  · exact le_rfl

theorem WellTimed.getD_nonneg (h : WellTimed trace) {i : ℕ} (hi : i < trace.length) :
    0 ≤ (trace.getD i (0, 0)).1 := by
  have hn := h.length_pos
  refine le_trans ?_ (h.getD_le (Nat.zero_le i) hi)
  refine h.first _ ?_
  rw [List.head?_eq_getElem?, List.getD_eq_getElem _ _ hn, List.getElem?_eq_getElem hn]
  rfl

theorem WellTimed.getD_last (h : WellTimed trace) :
    (trace.getD (trace.length - 1) (0, 0)).1 = period trace := by
  have hn : trace.length - 1 < trace.length := Nat.sub_lt h.length_pos Nat.one_pos
  rw [period, List.getLastD_eq_getLast?, List.getLast?_eq_getElem?, List.getElem?_map,
    List.length_map, List.getElem?_eq_getElem hn, List.getD_eq_getElem _ _ hn]
  rfl

/-- An occurrence is one of its pass. -/
private theorem split_index (h : WellTimed trace) (j : ℕ) :
    j = j / trace.length * trace.length + j % trace.length ∧ j % trace.length < trace.length :=
  ⟨(Nat.div_add_mod' j trace.length).symm, Nat.mod_lt _ h.length_pos⟩

/-- **The occurrences come in the order of their times.** -/
theorem WellTimed.time_mono (h : WellTimed trace) : Monotone (time trace) := by
  refine monotone_nat_of_le_succ fun j => ?_
  obtain ⟨hj, hi⟩ := split_index h j
  rw [hj]
  by_cases hlast : j % trace.length + 1 < trace.length
  · rw [Nat.add_assoc, time_pass hi, time_pass hlast]
    have := h.getD_le (Nat.le_succ _) hlast
    linarith
  · -- The last record of a pass is followed by the first of the next.
    have heq : j % trace.length = trace.length - 1 := by omega
    have hnext : j / trace.length * trace.length + j % trace.length + 1 =
        (j / trace.length + 1) * trace.length + 0 := by
      rw [Nat.add_mul]
      omega
    have hfirst := h.getD_nonneg h.length_pos
    rw [hnext, time_pass hi, time_pass h.length_pos, heq, h.getD_last]
    push_cast
    linarith

/-- Only finitely many occurrences are due. -/
private theorem lt_time (h : WellTimed trace) (T : ℚ) :
    T < time trace ((⌊T / period trace⌋₊ + 1) * trace.length) := by
  have hfloor : T / period trace < ⌊T / period trace⌋₊ + 1 := Nat.lt_floor_add_one _
  have hlt : T < (⌊T / period trace⌋₊ + 1) * period trace := (div_lt_iff₀ h.pos).mp hfloor
  have hfirst := h.getD_nonneg h.length_pos
  have htime := time_pass (k := ⌊T / period trace⌋₊ + 1) h.length_pos
  rw [Nat.add_zero] at htime
  rw [htime]
  push_cast
  linarith

/-- How many occurrences are due by `T`. -/
def count (h : WellTimed trace) (T : ℚ) : ℕ :=
  Nat.find (p := fun j => T < time trace j) ⟨_, lt_time h T⟩

theorem lt_time_count (h : WellTimed trace) (T : ℚ) : T < time trace (count h T) :=
  Nat.find_spec (p := fun j => T < time trace j) ⟨_, lt_time h T⟩

theorem lt_count_iff (h : WellTimed trace) {T : ℚ} {j : ℕ} : j < count h T ↔ time trace j ≤ T := by
  constructor
  · intro hj
    exact not_lt.mp (Nat.find_min (p := fun j => T < time trace j) _ hj)
  · intro hj
    by_contra hle
    have := h.time_mono (not_lt.mp hle)
    exact absurd (lt_of_lt_of_le (lt_time_count h T) this) (not_lt.mpr hj)

theorem count_le (h : WellTimed trace) (T : ℚ) :
    count h T ≤ (⌊T / period trace⌋₊ + 1) * trace.length := Nat.find_min' _ (lt_time h T)

private theorem occurrences_eq (trace : List (ℚ × ℚ)) (m : ℕ) : occurrences trace m =
    (List.range (m * trace.length)).map fun j => (time trace j, bytes trace j) := by
  induction m with
  | zero => simp [occurrences]
  | succ m ih =>
      rw [occurrences, List.range_succ, List.flatMap_append, ← occurrences, ih, Nat.add_mul,
        Nat.one_mul, List.range_add, List.map_append, List.flatMap_singleton, List.map_map]
      congr 1
      refine List.ext_getElem (by simp) fun i hi hi' => ?_
      have hi : i < trace.length := by simpa using hi
      simp only [List.getElem_map, List.getElem_range, Function.comp_apply]
      rw [time_pass hi, bytes_pass hi, List.getD_eq_getElem _ _ hi]

private theorem filter_range {p : ℕ → Bool} {c m : ℕ} (hc : c ≤ m) (hp : ∀ j, p j = true ↔ j < c) :
    (List.range m).filter p = List.range c := by
  obtain ⟨d, rfl⟩ := Nat.exists_eq_add_of_le hc
  rw [List.range_add, List.filter_append]
  have hlow : (List.range c).filter p = List.range c :=
    List.filter_eq_self.mpr fun j hj => (hp j).mpr (List.mem_range.mp hj)
  have hhigh : ((List.range d).map (c + ·)).filter p = [] := by
    refine List.filter_eq_nil_iff.mpr fun j hj hpj => ?_
    obtain ⟨i, -, rfl⟩ := List.mem_map.mp hj
    have := (hp _).mp hpj
    omega
  rw [hlow, hhigh, List.append_nil]

/-- **What is due is the bytes of the first occurrences.** -/
theorem due_eq (h : WellTimed trace) (T : ℚ) :
    due trace T = ∑ j ∈ Finset.range (count h T), bytes trace j := by
  have hfilter : (List.range ((⌊T / period trace⌋₊ + 1) * trace.length)).filter
      (fun j => time trace j ≤ T) = List.range (count h T) :=
    filter_range (count_le h T) fun j => by rw [decide_eq_true_eq, lt_count_iff h]
  rw [due, occurrences_eq, List.filter_map]
  show (((List.filter (fun j => time trace j ≤ T) _).map _).map _).sum = _
  rw [hfilter, List.map_map]
  exact (Multiset.sum_coe _).symm

/-! ### Stamps -/

private theorem stamp_pass {k i : ℕ} (hi : i < trace.length) : stamp trace (k * trace.length + i) =
    binary64.store ((trace.getD i (0, 0)).1 + offset trace k) := by
  have hmod : (k * trace.length + i) % trace.length = i := by
    rw [Nat.mul_add_mod', Nat.mod_eq_of_lt hi]
  have hdiv : (k * trace.length + i) / trace.length = k := by
    rw [Nat.mul_comm, Nat.mul_add_div (Nat.zero_lt_of_lt hi), Nat.div_eq_of_lt hi, Nat.add_zero]
  rw [stamp, hmod, hdiv]

theorem offset_succ (k : ℕ) : offset trace (k + 1) = nextOffset trace (offset trace k) :=
  Function.iterate_succ_apply' ..

theorem WellTimed.getD_holds (h : WellTimed trace) {i : ℕ} (hi : i < trace.length) :
    binary64.Holds (trace.getD i (0, 0)).1 ∧ binary32.Holds (trace.getD i (0, 0)).2 := by
  rw [List.getD_eq_getElem _ _ hi]
  exact h.holds _ (List.getElem_mem hi)

/-- On the first pass nothing is rounded. -/
private theorem stamp_first (h : WellTimed trace) {j : ℕ} (hj : j < trace.length) :
    stamp trace j = (trace.getD j (0, 0)).1 := by
  have hpass := stamp_pass (k := 0) hj
  rw [Nat.zero_mul, Nat.zero_add] at hpass
  rw [hpass]
  show binary64.store (_ + 0) = _
  rw [add_zero, (h.getD_holds hj).1.store_eq]

/-- The bytes of an occurrence are a `float`. -/
private theorem holds_bytes (h : WellTimed trace) (j : ℕ) : binary32.Holds (bytes trace j) :=
  (h.getD_holds (Nat.mod_lt j h.length_pos)).2

theorem lt_stamp_reached {t : ℚ} (ht : Passes trace t) : t < stamp trace (reached trace t) :=
  Nat.sInf_mem ht

theorem stamp_le_of_lt {t : ℚ} {j : ℕ} (hj : j < reached trace t) : stamp trace j ≤ t :=
  not_lt.mp fun hlt => Nat.notMem_of_lt_sInf hj hlt

theorem reached_mono {T t : ℚ} (hT : T ≤ t) (ht : Passes trace t) :
    reached trace T ≤ reached trace t := Nat.sInf_le (hT.trans_lt (lt_stamp_reached ht))

theorem reached_eq {t : ℚ} {j : ℕ} (hj : t < stamp trace j) (hle : ∀ i < j, stamp trace i ≤ t) :
    reached trace t = j := by
  refine le_antisymm (Nat.sInf_le hj) (not_lt.mp fun hlt => ?_)
  exact absurd (lt_stamp_reached ⟨j, hj⟩) (not_lt.mpr (hle _ hlt))

private theorem reached_of_neg (h : WellTimed trace) {t : ℚ} (ht : t < 0) :
    reached trace t = 0 := by
  refine reached_eq ?_ fun i hi => absurd hi (Nat.not_lt_zero i)
  rw [stamp_first h h.length_pos]
  exact ht.trans_le (h.getD_nonneg h.length_pos)

/-- Once the first pass is over, so are the times of the trace. -/
theorem length_le_reached_iff (h : WellTimed trace) {t : ℚ} (ht : Passes trace t) :
    trace.length ≤ reached trace t ↔ period trace ≤ t := by
  have hn := h.length_pos
  have hlast : stamp trace (trace.length - 1) = period trace := by
    rw [stamp_first h (Nat.sub_lt hn Nat.one_pos), h.getD_last]
  constructor
  · intro hle
    rw [← hlast]
    exact stamp_le_of_lt (by omega)
  · intro hle
    by_contra hlt
    have hpast := lt_stamp_reached ht
    rw [stamp_first h (not_le.mp hlt)] at hpast
    have hsorted := h.getD_le (i := reached trace t) (j := trace.length - 1) (by omega) (by omega)
    rw [h.getD_last] at hsorted
    linarith

end Occurrences

/-! ### One call -/

/-- The reader that has read `j` records. -/
def reading (trace : List (ℚ × ℚ)) : ℕ → TraceReader
  | 0 => { file := trace }
  | j + 1 =>
    { file := trace.drop (j % trace.length + 1), lastT := stamp trace j, lastTp := bytes trace j
      tAcc := offset trace (j / trace.length) }

/-- What the loop of a call at `t` counts when it reads record `j`: nothing when it is to
wait for its time, which it is on the first pass only. -/
def counted (trace : List (ℚ × ℚ)) (t : ℚ) (j : ℕ) : ℚ :=
  if j < trace.length ∧ t < stamp trace j then 0 else bytes trace j

/-- What a call counts early: on a later pass, the first occurrence after it. -/
noncomputable def early (trace : List (ℚ × ℚ)) (t : ℚ) : ℚ :=
  if trace.length ≤ reached trace t then bytes trace (reached trace t) else 0

/-- What a call at `t` adds up, when occurrence `c` was the first after the calls before. -/
noncomputable def batch (trace : List (ℚ × ℚ)) (c : ℕ) (t : ℚ) : List ℚ :=
  if c < reached trace t then
    (List.range' c (reached trace t - c)).map (bytes trace) ++ [early trace t]
  else []

section Calls

variable {trace : List (ℚ × ℚ)} {t : ℚ}

private theorem accept_of_le {r : TraceReader} {record : ℚ × ℚ} {rest : List (ℚ × ℚ)}
    (hle : record.1 ≤ t) : r.accept t record rest =
      ({ file := rest, lastT := binary64.store (record.1 + r.tAcc), lastTp := record.2
         tAcc := r.tAcc }, record.2) :=
  if_pos hle

private theorem accept_of_lt {r : TraceReader} {record : ℚ × ℚ} {rest : List (ℚ × ℚ)}
    (hlt : t < record.1) : r.accept t record rest =
      ({ file := rest, lastT := record.1, lastTp := record.2, tAcc := r.tAcc }, 0) :=
  if_neg (not_le.mpr hlt)

private theorem body_cons {r : TraceReader} {record : ℚ × ℚ} {rest : List (ℚ × ℚ)}
    (hfile : r.file = record :: rest) : r.body trace t = r.accept t record rest := by
  unfold TraceReader.body
  rw [hfile]

private theorem body_nil {r : TraceReader} {record : ℚ × ℚ} {rest : List (ℚ × ℚ)}
    (hfile : r.file = []) (htrace : trace = record :: rest) :
    r.body trace t = ({ r with tAcc := binary32.store r.lastT, file := trace } :
      TraceReader).accept t record rest := by
  unfold TraceReader.body
  rw [hfile]
  subst htrace
  rfl

/-- A record of the first pass is compared by its time. -/
private theorem accept_first (h : WellTimed trace) {r : TraceReader} {j : ℕ}
    (hj : j < trace.length) (hacc : r.tAcc = 0) :
    r.accept t (trace.getD j (0, 0)) (trace.drop (j + 1)) =
      (reading trace (j + 1), counted trace t j) := by
  have hstamp := stamp_first h hj
  have hbytes : bytes trace j = (trace.getD j (0, 0)).2 := by rw [bytes, Nat.mod_eq_of_lt hj]
  have hread : reading trace (j + 1) = { file := trace.drop (j + 1), lastT := stamp trace j
                                         lastTp := bytes trace j, tAcc := 0 } := by
    rw [reading, Nat.mod_eq_of_lt hj, Nat.div_eq_of_lt hj]
    rfl
  rw [hread, counted, hstamp, hbytes]
  by_cases hle : (trace.getD j (0, 0)).1 ≤ t
  · rw [accept_of_le hle, if_neg fun hlt => absurd hle (not_le.mpr hlt.2), hacc, add_zero,
      (h.getD_holds hj).1.store_eq]
  · rw [accept_of_lt (not_le.mp hle), if_pos ⟨hj, not_le.mp hle⟩, hacc]

/-- A record of a later pass is compared before the offset of its pass is added. -/
private theorem accept_later (h : WellTimed trace) {r : TraceReader} {k i : ℕ} (hk : 0 < k)
    (hi : i < trace.length) (hacc : r.tAcc = offset trace k) (ht : period trace ≤ t) :
    r.accept t (trace.getD i (0, 0)) (trace.drop (i + 1)) =
      (reading trace (k * trace.length + i + 1), counted trace t (k * trace.length + i)) := by
  have hle : (trace.getD i (0, 0)).1 ≤ t := by
    have := h.getD_le (Nat.le_sub_one_of_lt hi) (Nat.sub_lt h.length_pos Nat.one_pos)
    rw [h.getD_last] at this
    exact this.trans ht
  have hlate : ¬ k * trace.length + i < trace.length := by
    have := Nat.le_mul_of_pos_left trace.length hk
    omega
  have hmod : (k * trace.length + i) % trace.length = i := by
    rw [Nat.mul_add_mod', Nat.mod_eq_of_lt hi]
  have hdiv : (k * trace.length + i) / trace.length = k := by
    rw [Nat.mul_comm, Nat.mul_add_div h.length_pos, Nat.div_eq_of_lt hi, Nat.add_zero]
  rw [accept_of_le hle, counted, if_neg fun hno => hlate hno.1, reading, hmod, hdiv,
    stamp_pass hi, bytes_pass hi, hacc]

private theorem drop_eq_cons {i : ℕ} (hi : i < trace.length) :
    trace.drop i = trace.getD i (0, 0) :: trace.drop (i + 1) := by
  rw [List.getD_eq_getElem _ _ hi]
  exact List.drop_eq_getElem_cons hi

/-- **One turn of the loop reads the next record.** -/
private theorem body_reading (h : WellTimed trace) {j : ℕ} (hle : ∀ i < j, stamp trace i ≤ t) :
    (reading trace j).body trace t = (reading trace (j + 1), counted trace t j) := by
  have hn := h.length_pos
  -- Past the first pass the call is past the times of the trace.
  have hperiod : trace.length ≤ j → period trace ≤ t := by
    intro hpast
    have hlast := hle (trace.length - 1) (by omega)
    rwa [stamp_first h (Nat.sub_lt hn Nat.one_pos), h.getD_last] at hlast
  cases j with
  | zero =>
      have hcons : (reading trace 0).file = _ := drop_eq_cons hn
      rw [body_cons hcons]
      exact accept_first h hn rfl
  | succ j =>
      obtain ⟨hj, hi⟩ := split_index h j
      by_cases hlast : j % trace.length + 1 < trace.length
      · have hcons : (reading trace (j + 1)).file = _ := drop_eq_cons hlast
        rw [body_cons hcons]
        rcases Nat.eq_zero_or_pos (j / trace.length) with hk | hk
        · have hsmall : j % trace.length = j := by
            rw [hk, Nat.zero_mul, Nat.zero_add] at hj
            exact hj.symm
          rw [hsmall] at hlast ⊢
          refine accept_first h hlast ?_
          show offset trace (j / trace.length) = 0
          rw [hk]
          rfl
        · have hnext : j + 1 = j / trace.length * trace.length + (j % trace.length + 1) := by omega
          have hpast := Nat.le_mul_of_pos_left trace.length hk
          conv_rhs => rw [hnext]
          exact accept_later h hk hlast rfl (hperiod (by omega))
      · -- The file is read to its end: its last stamp makes the next offset.
        have heq : j % trace.length = trace.length - 1 := by omega
        have hnil : (reading trace (j + 1)).file = [] :=
          List.drop_eq_nil_of_le (by omega)
        have hcons := drop_eq_cons hn
        rw [List.drop_zero] at hcons
        have hnext : j + 1 = (j / trace.length + 1) * trace.length + 0 := by
          rw [Nat.add_mul]
          omega
        have hacc : binary32.store (stamp trace j) = offset trace (j / trace.length + 1) := by
          rw [stamp, heq, h.getD_last, offset_succ]
          rfl
        have hpast := Nat.le_mul_of_pos_left trace.length (Nat.succ_pos (j / trace.length))
        rw [body_nil hnil hcons]
        conv_rhs => rw [hnext]
        exact accept_later h (Nat.succ_pos _) hn hacc (hperiod (by omega))

/-- A turn whose stamp is not past the call counts the record. -/
private theorem counted_of_lt {j : ℕ} (hj : j < reached trace t) :
    counted trace t j = bytes trace j :=
  if_neg fun hno => absurd hno.2 (not_lt.mpr (stamp_le_of_lt hj))

private theorem counted_reached (ht : Passes trace t) :
    counted trace t (reached trace t) = early trace t := by
  unfold counted early
  by_cases hp : trace.length ≤ reached trace t
  · rw [if_pos hp, if_neg fun hno => absurd hno.1 (not_lt.mpr hp)]
  · rw [if_neg hp, if_pos ⟨not_le.mp hp, lt_stamp_reached ht⟩]

/-- What a variable of `float` holds after the amounts were added. -/
private def added (total : ℚ) (l : List ℚ) : ℚ := l.foldl (fun x y => binary32.store (x + y)) total

/-- **The loop reads every occurrence it reaches and one more.** -/
private theorem loop_reading (h : WellTimed trace) (ht : Passes trace t) (m : ℕ) :
    ∀ (fuel j : ℕ) (total : ℚ), reached trace t = j + m → (reading trace j).lastT ≤ t →
    m + 2 ≤ fuel → TraceReader.loop trace t fuel (reading trace j) total =
      some (reading trace (reached trace t + 1),
        added total ((List.range' j m).map (bytes trace) ++ [early trace t])) := by
  induction m with
  | zero =>
      intro fuel j total hj hle hfuel
      obtain ⟨fuel, rfl⟩ := Nat.exists_eq_add_of_le' hfuel
      have hpast := lt_stamp_reached ht
      have hcounted := counted_reached ht
      rw [hj, Nat.add_zero] at hpast hcounted
      have hstop : ¬ (reading trace (j + 1)).lastT ≤ t := not_le.mpr hpast
      rw [TraceReader.loop, if_pos hle, body_reading h fun i hi => stamp_le_of_lt (by omega),
        TraceReader.loop, if_neg hstop, hj, Nat.add_zero, hcounted]
      rfl
  | succ m ih =>
      intro fuel j total hj hle hfuel
      obtain ⟨fuel, rfl⟩ := Nat.exists_eq_add_of_le' (Nat.one_le_of_lt hfuel)
      have hnext : (reading trace (j + 1)).lastT ≤ t := stamp_le_of_lt (by omega)
      rw [TraceReader.loop, if_pos hle, body_reading h fun i hi => stamp_le_of_lt (by omega),
        ih fuel (j + 1) _ (by omega) hnext (by omega), counted_of_lt (by omega)]
      rfl

/-- A call that all stamps have come before reads for ever. -/
private theorem loop_never (h : WellTimed trace) (hno : ¬ Passes trace t) (fuel : ℕ) :
    ∀ (j : ℕ) (total : ℚ), TraceReader.loop trace t fuel (reading trace j) total = none := by
  have hle : ∀ i, stamp trace i ≤ t := fun i => not_lt.mp fun hlt => hno ⟨i, hlt⟩
  induction fuel with
  | zero => intro _ _; rfl
  | succ fuel ih =>
      intro j total
      have hlast : (reading trace j).lastT ≤ t := by
        cases j with
        | zero =>
            have hzero := hle 0
            rw [stamp_first h h.length_pos] at hzero
            exact (h.getD_nonneg h.length_pos).trans hzero
        | succ j => exact hle j
      rw [TraceReader.loop, if_pos hlast, body_reading h fun i _ => hle i]
      exact ih (j + 1) _

/-- The reader after calls up to `T`; before time 0 none has read anything. -/
noncomputable def settle (trace : List (ℚ × ℚ)) (T : ℚ) : TraceReader :=
  reading trace (if T < 0 then 0 else reached trace T + 1)

/-- What a call returns, from what it adds up. -/
noncomputable def returns (trace : List (ℚ × ℚ)) (c : ℕ) (t : ℚ) : ℚ :=
  binary32.store (binary32.sum (batch trace c t) * 8)

/-- **What a call returns, and what it leaves.** -/
private theorem generate_settle (h : WellTimed trace) {T : ℚ} (hT : T ≤ t) (ht : Passes trace t)
    {fuel : ℕ} (hfuel : reached trace t + 3 ≤ fuel) : (settle trace T).generate trace fuel t =
      some (settle trace t, returns trace (reached trace T) t) := by
  obtain ⟨fuel, rfl⟩ := Nat.exists_eq_add_of_le' hfuel
  by_cases hneg : T < 0
  · have hstart : settle trace T = reading trace 0 := by rw [settle, if_pos hneg]
    rw [hstart, reached_of_neg h hneg, TraceReader.generate]
    by_cases ht' : t < 0
    · -- Nothing is read before time 0.
      have hstop : ¬ (reading trace 0).lastT ≤ t := not_le.mpr ht'
      have hempty : batch trace 0 t = [] := by
        rw [batch, reached_of_neg h ht', if_neg (Nat.lt_irrefl 0)]
      rw [if_neg hstop, ← Nat.add_assoc, TraceReader.loop, if_neg hstop, settle, if_pos ht',
        returns, hempty]
      rfl
    · have hle : (reading trace 0).lastT ≤ t := not_lt.mp ht'
      have hbatch : added 0 ((List.range' 0 (reached trace t)).map (bytes trace) ++
          [early trace t]) = binary32.sum (batch trace 0 t) := by
        rcases Nat.eq_zero_or_pos (reached trace t) with hzero | hpos
        · have hn := h.length_pos
          rw [batch, early, hzero, if_neg (Nat.lt_irrefl 0), if_neg (by omega)]
          show binary32.store (0 + 0) = 0
          rw [add_zero, Format.store_zero]
        · rw [batch, if_pos hpos]
          rfl
      rw [if_pos hle, loop_reading h ht (reached trace t) _ 0 _ (by omega) hle (by omega), settle,
        if_neg ht', returns, ← hbatch]
      rfl
  · have ht' : ¬ t < 0 := fun ht' => hneg (hT.trans_lt ht')
    have hstart : settle trace T = reading trace (reached trace T + 1) := by
      rw [settle, if_neg hneg]
    have hend : settle trace t = reading trace (reached trace t + 1) := by
      rw [settle, if_neg ht']
    rw [hstart, hend, TraceReader.generate]
    by_cases hlt : reached trace T < reached trace t
    · -- The record read last is reached, and is counted now, for the second time on a later pass.
      have hle : (reading trace (reached trace T + 1)).lastT ≤ t := stamp_le_of_lt hlt
      obtain ⟨m, hm⟩ := Nat.exists_eq_add_of_lt hlt
      have hbatch : added (bytes trace (reached trace T))
          ((List.range' (reached trace T + 1) m).map (bytes trace) ++ [early trace t]) =
            binary32.sum (batch trace (reached trace T) t) := by
        have hcount : reached trace t - reached trace T = m + 1 := by omega
        have hfirst : binary32.store (0 + bytes trace (reached trace T)) =
            bytes trace (reached trace T) := by rw [zero_add, (holds_bytes h _).store_eq]
        rw [batch, if_pos hlt, hcount, List.range'_succ, List.map_cons, List.cons_append,
          Format.sum, List.foldl_cons, hfirst]
        rfl
      rw [if_pos hle, loop_reading h ht m _ _ _ (by omega) hle (by omega), returns, ← hbatch]
      rfl
    · have heq : reached trace T = reached trace t :=
        le_antisymm (reached_mono hT ht) (not_lt.mp hlt)
      have hstop : ¬ (reading trace (reached trace t + 1)).lastT ≤ t :=
        not_le.mpr (lt_stamp_reached ht)
      rw [heq, if_neg hstop, ← Nat.add_assoc, TraceReader.loop, if_neg hstop, returns, batch,
        if_neg (Nat.lt_irrefl _)]
      rfl

/-- A call that does not come before a stamp does not return. -/
private theorem generate_never (h : WellTimed trace) (hno : ¬ Passes trace t) (fuel : ℕ) (T : ℚ) :
    (settle trace T).generate trace fuel t = none := by
  rw [TraceReader.generate, settle, loop_never h hno, Option.map_none]

private theorem loop_mono {fuel fuel' : ℕ} (hle : fuel ≤ fuel') : ∀ {r : TraceReader} {total : ℚ}
    {x : TraceReader × ℚ}, TraceReader.loop trace t fuel r total = some x →
    TraceReader.loop trace t fuel' r total = some x := by
  induction fuel generalizing fuel' with
  | zero => intro _ _ _ h; cases h
  | succ fuel ih =>
      intro r total x h
      obtain ⟨fuel', rfl⟩ := Nat.exists_eq_add_of_le' (Nat.one_le_of_lt hle)
      rw [TraceReader.loop] at h ⊢
      by_cases hr : r.lastT ≤ t
      · rw [if_pos hr] at h ⊢
        exact ih (by omega) h
      · rw [if_neg hr] at h ⊢
        exact h

private theorem generate_mono {fuel fuel' : ℕ} (hle : fuel ≤ fuel') {r : TraceReader}
    {x : TraceReader × ℚ} (h : r.generate trace fuel t = some x) :
    r.generate trace fuel' t = some x := by
  obtain ⟨y, hloop, rfl⟩ := Option.map_eq_some_iff.mp h
  rw [TraceReader.generate, loop_mono hle hloop]
  rfl

end Calls

/-! ### What the calls return together -/

/-- What calls at the times `ts` return together, when occurrence `c` was the first after the
calls before. -/
noncomputable def outcome (trace : List (ℚ × ℚ)) : ℕ → List ℚ → ℚ
  | _, [] => 0
  | c, t :: rest => returns trace c t + outcome trace (reached trace t) rest

/-- The bits a call returns besides those of the occurrences it reaches: those of the
occurrence it counts early, and what rounding adds or takes. -/
noncomputable def slip (trace : List (ℚ × ℚ)) (c : ℕ) (t : ℚ) : ℚ :=
  returns trace c t - 8 * ∑ j ∈ Finset.Ico c (reached trace t), bytes trace j

/-- The same for calls at the times `ts`. -/
noncomputable def slips (trace : List (ℚ × ℚ)) : ℕ → List ℚ → ℚ
  | _, [] => 0
  | c, t :: rest => slip trace c t + slips trace (reached trace t) rest

/-- The bits that are due at `t` and not reached, or with a minus sign those that are reached
and not due: what the rounding of the times makes. -/
noncomputable def late (trace : List (ℚ × ℚ)) (t : ℚ) : ℚ :=
  8 * (due trace t - ∑ j ∈ Finset.range (reached trace t), bytes trace j)

/-- The rounding of the times moves no occurrence across a call at `t`. -/
def Timed (trace : List (ℚ × ℚ)) (t : ℚ) : Prop := ∀ j, stamp trace j ≤ t ↔ time trace j ≤ t

/-- A call at `t` adds its amounts up without rounding. -/
def Summed (trace : List (ℚ × ℚ)) (t : ℚ) : Prop :=
  ∀ c, returns trace c t = 8 * (batch trace c t).sum

/-- No occurrence with bytes is the first after a call at `t` on a later pass. -/
def Quiet (trace : List (ℚ × ℚ)) (t : ℚ) : Prop :=
  t < period trace ∨ bytes trace (reached trace t) = 0

section Totals

variable {trace : List (ℚ × ℚ)} {t : ℚ}

/-- What calls return is what they reach, and the slips. -/
private theorem outcome_eq : ∀ {c : ℕ} {ts : List ℚ}, (ts ++ [t]).Pairwise (· ≤ ·) →
    (∀ s ∈ ts ++ [t], Passes trace s) → (∀ s ∈ ts ++ [t], c ≤ reached trace s) →
    outcome trace c (ts ++ [t]) = 8 * ∑ j ∈ Finset.Ico c (reached trace t), bytes trace j +
      slips trace c (ts ++ [t]) := by
  intro c ts
  induction ts generalizing c with
  | nil =>
      intro _ _ _
      simp only [List.nil_append, outcome, slips, slip]
      ring
  | cons s rest ih =>
      intro hsorted hpasses hc
      rw [List.cons_append] at hsorted hpasses hc ⊢
      obtain ⟨hs, hrest⟩ := List.pairwise_cons.mp hsorted
      have hmono : ∀ u ∈ rest ++ [t], reached trace s ≤ reached trace u := fun u hu =>
        reached_mono (hs u hu) (hpasses u (List.mem_cons_of_mem _ hu))
      have hle := hmono t (List.mem_append_right _ (List.mem_singleton_self t))
      rw [outcome, slips, ih hrest (fun u hu => hpasses u (List.mem_cons_of_mem _ hu)) hmono, slip,
        ← Finset.sum_Ico_consecutive _ (hc s (List.mem_cons_self ..)) hle]
      ring

private theorem passes_of_timed (h : WellTimed trace) (htimed : Timed trace t) :
    Passes trace t := by
  refine ⟨count h t, not_le.mp fun hle => ?_⟩
  exact absurd (lt_time_count h t) (not_lt.mpr ((htimed _).mp hle))

theorem late_of_timed (h : WellTimed trace) (ht : Passes trace t) (htimed : Timed trace t) :
    late trace t = 0 := by
  have hcount : count h t = reached trace t := by
    refine le_antisymm (not_lt.mp fun hlt => ?_) (not_lt.mp fun hlt => ?_)
    · have hle := (htimed _).mpr ((lt_count_iff h).mp hlt)
      exact absurd (lt_stamp_reached ht) (not_lt.mpr hle)
    · have hle := (htimed _).mp (stamp_le_of_lt hlt)
      exact absurd (lt_time_count h t) (not_lt.mpr hle)
  rw [late, due_eq h, hcount, sub_self, mul_zero]

theorem slip_of_summed (hsummed : Summed trace t) {c : ℕ} (hc : c ≤ reached trace t) :
    slip trace c t = 8 * (if c < reached trace t then early trace t else 0) := by
  rw [slip, hsummed c, batch]
  by_cases hlt : c < reached trace t
  · have hsum : ((List.range' c (reached trace t - c)).map (bytes trace)).sum =
        ∑ j ∈ Finset.Ico c (reached trace t), bytes trace j := (Multiset.sum_coe _).symm
    rw [if_pos hlt, if_pos hlt, List.sum_append, hsum, List.sum_singleton]
    ring
  · rw [if_neg hlt, if_neg hlt, le_antisymm hc (not_lt.mp hlt), Finset.Ico_self]
    simp

private theorem quiet_iff (h : WellTimed trace) (ht : Passes trace t) :
    Quiet trace t ↔ early trace t = 0 := by
  rw [Quiet, early, ← not_le, ← length_le_reached_iff h ht]
  by_cases hp : trace.length ≤ reached trace t
  · simp [hp]
  · simp [hp]

end Totals

end Trace

namespace TrafficGenerator

open Trace

/-- The trace of one direction. -/
def trace (g : TrafficGenerator) : Direction → List (ℚ × ℚ)
  | .ul => g.ulTrace
  | .dl => g.dlTrace

/-- What the calls in direction `tx` return together; `none` when a call does not return. -/
def returned (fuel : ℕ) (g : TrafficGenerator) (tx : Direction) (cs : List (Direction × ℚ)) :
    Option ℚ :=
  (g.calls fuel cs).map fun x => (((cs.zip x.2).filter (·.1.1 = tx)).map Prod.snd).sum

/-- The times of the calls in one direction. -/
def times (tx : Direction) (cs : List (Direction × ℚ)) : List ℚ :=
  (cs.filter (·.1 = tx)).map Prod.snd

private theorem times_concat (tx : Direction) (pre : List (Direction × ℚ)) (t : ℚ) :
    times tx (pre ++ [(tx, t)]) = times tx pre ++ [t] := by simp [times]

private theorem mem_times {tx : Direction} {cs : List (Direction × ℚ)} {t : ℚ} :
    t ∈ times tx cs ↔ (tx, t) ∈ cs := by
  constructor
  · intro ht
    obtain ⟨c, hc, rfl⟩ := List.mem_map.mp ht
    obtain ⟨hc, htx⟩ := List.mem_filter.mp hc
    rwa [← of_decide_eq_true htx]
  · intro ht
    exact List.mem_map.mpr ⟨(tx, t), List.mem_filter.mpr ⟨ht, by simp⟩, rfl⟩

section Calls

variable {traces : Direction → List (ℚ × ℚ)} (h : ∀ tx, WellTimed (traces tx))

/-- A generator after calls up to the times `T`. -/
private noncomputable def settled (traces : Direction → List (ℚ × ℚ)) (T : Direction → ℚ) :
    TrafficGenerator :=
  { ulTrace := traces .ul, dlTrace := traces .dl
    ul := settle (traces .ul) (T .ul), dl := settle (traces .dl) (T .dl) }

/-- What a call returns. -/
private noncomputable def gain (traces : Direction → List (ℚ × ℚ)) (T : Direction → ℚ)
    (c : Direction × ℚ) : ℚ :=
  returns (traces c.1) (reached (traces c.1) (T c.1)) c.2

/-- The generator with another reader in one direction. -/
private def put (g : TrafficGenerator) : Direction → TraceReader → TrafficGenerator
  | .ul, r => { g with ul := r }
  | .dl, r => { g with dl := r }

private theorem put_settled (T : Direction → ℚ) (tx : Direction) (t : ℚ) :
    (settled traces T).put tx (settle (traces tx) t) =
      settled traces (Function.update T tx t) := by
  cases tx <;> simp [put, settled]

section Call

variable {T : Direction → ℚ} {c : Direction × ℚ} {fuel : ℕ}

/-- A call at a `double` is a call of the reader of its direction. -/
private theorem generate_eq (hdouble : binary64.Holds c.2) :
    (settled traces T).generate fuel c.1 c.2 =
      ((settle (traces c.1) (T c.1)).generate (traces c.1) fuel c.2).map fun x =>
        ((settled traces T).put c.1 x.1, x.2) := by
  obtain ⟨tx, t⟩ := c
  have ht : binary64.store (t - 0) = t := by rw [sub_zero, hdouble.store_eq]
  cases tx with
  | ul => simp only [generate, generateUl, settled, ht]; rfl
  | dl => simp only [generate, generateDl, settled, ht]; rfl

include h

private theorem generate_settled (hdouble : binary64.Holds c.2) (hT : T c.1 ≤ c.2)
    (hpasses : Passes (traces c.1) c.2) (hfuel : reached (traces c.1) c.2 + 3 ≤ fuel) :
    (settled traces T).generate fuel c.1 c.2 =
      some (settled traces (Function.update T c.1 c.2), gain traces T c) := by
  rw [generate_eq hdouble, generate_settle (h c.1) hT hpasses hfuel, Option.map_some, put_settled]
  rfl

/-- A call that returns comes before a stamp, and leaves the generator settled. -/
private theorem generate_some (hdouble : binary64.Holds c.2) (hT : T c.1 ≤ c.2)
    {x : TrafficGenerator × ℚ} (hcall : (settled traces T).generate fuel c.1 c.2 = some x) :
    Passes (traces c.1) c.2 ∧ x.1 = settled traces (Function.update T c.1 c.2) := by
  rw [generate_eq hdouble] at hcall
  obtain ⟨y, hy, rfl⟩ := Option.map_eq_some_iff.mp hcall
  have hpasses : Passes (traces c.1) c.2 := by
    by_contra hno
    rw [generate_never (h c.1) hno] at hy
    cases hy
  -- More fuel does not change what a call leaves.
  have hmore := generate_mono (le_max_left fuel (reached (traces c.1) c.2 + 3)) hy
  rw [generate_settle (h c.1) hT hpasses (le_max_right ..)] at hmore
  obtain rfl := Option.some.inj hmore
  exact ⟨hpasses, put_settled T c.1 c.2⟩

end Call

private noncomputable def gains (traces : Direction → List (ℚ × ℚ)) :
    (Direction → ℚ) → List (Direction × ℚ) → List ℚ
  | _, [] => []
  | T, c :: rest => gain traces T c :: gains traces (Function.update T c.1 c.2) rest

/-- Calls at later times are later than a call. -/
private theorem le_of_update {T : Direction → ℚ} {c : Direction × ℚ} {rest : List (Direction × ℚ)}
    (hT : ∀ d ∈ c :: rest, T d.1 ≤ d.2) (hc : ∀ d ∈ rest, c.2 ≤ d.2) :
    ∀ d ∈ rest, Function.update T c.1 c.2 d.1 ≤ d.2 := by
  intro d hd
  by_cases htx : d.1 = c.1
  · rw [htx, Function.update_self]
    exact hc d hd
  · rw [Function.update_of_ne htx]
    exact hT d (List.mem_cons_of_mem _ hd)

include h in
private theorem calls_settled {fuel : ℕ} : ∀ {T : Direction → ℚ} {cs : List (Direction × ℚ)},
    (∀ c ∈ cs, binary64.Holds c.2) → (∀ c ∈ cs, T c.1 ≤ c.2) →
    cs.Pairwise (fun c d => c.2 ≤ d.2) → (∀ c ∈ cs, Passes (traces c.1) c.2) →
    (∀ c ∈ cs, reached (traces c.1) c.2 + 3 ≤ fuel) →
    ∃ g, (settled traces T).calls fuel cs = some (g, gains traces T cs) := by
  intro T cs
  induction cs generalizing T with
  | nil => intro _ _ _ _ _; exact ⟨_, rfl⟩
  | cons c rest ih =>
      intro hdouble hT hsorted hpasses hfuel
      rw [List.forall_mem_cons] at hdouble hpasses hfuel
      obtain ⟨hc, hrest⟩ := List.pairwise_cons.mp hsorted
      obtain ⟨g, hg⟩ := ih hdouble.2 (le_of_update hT hc) hrest hpasses.2 hfuel.2
      refine ⟨g, ?_⟩
      have hcall := generate_settled h hdouble.1 (hT c (List.mem_cons_self ..)) hpasses.1 hfuel.1
      rw [calls, hcall, Option.bind_some, hg, gains]
      rfl

include h in
/-- Calls that return come before stamps. -/
private theorem passes_of_calls {fuel : ℕ} : ∀ {T : Direction → ℚ} {cs : List (Direction × ℚ)},
    (∀ c ∈ cs, binary64.Holds c.2) → (∀ c ∈ cs, T c.1 ≤ c.2) →
    cs.Pairwise (fun c d => c.2 ≤ d.2) → ((settled traces T).calls fuel cs).isSome →
    ∀ c ∈ cs, Passes (traces c.1) c.2 := by
  intro T cs
  induction cs generalizing T with
  | nil => intro _ _ _ _ c hc; cases hc
  | cons c rest ih =>
      intro hdouble hT hsorted hsome
      rw [List.forall_mem_cons] at hdouble ⊢
      obtain ⟨hc, hrest⟩ := List.pairwise_cons.mp hsorted
      obtain ⟨x, hx⟩ := Option.isSome_iff_exists.mp hsome
      obtain ⟨y, hy, hz⟩ := Option.bind_eq_some_iff.mp hx
      obtain ⟨z, hz, -⟩ := Option.map_eq_some_iff.mp hz
      obtain ⟨hpasses, hy'⟩ := generate_some h hdouble.1 (hT c (List.mem_cons_self ..)) hy
      refine ⟨hpasses, ih hdouble.2 (le_of_update hT hc) hrest ?_⟩
      rw [← hy', hz]
      rfl

/-- What the calls in one direction return. -/
private theorem sum_gains (tx : Direction) : ∀ {T : Direction → ℚ} {cs : List (Direction × ℚ)},
    (((cs.zip (gains traces T cs)).filter (·.1.1 = tx)).map Prod.snd).sum =
      outcome (traces tx) (reached (traces tx) (T tx)) (times tx cs) := by
  intro T cs
  induction cs generalizing T with
  | nil => rfl
  | cons c rest ih =>
      have ih := ih (T := Function.update T c.1 c.2)
      rw [gains, List.zip_cons_cons]
      by_cases htx : c.1 = tx
      · subst htx
        rw [Function.update_self] at ih
        have htimes : times c.1 (c :: rest) = c.2 :: times c.1 rest := by simp [times]
        rw [List.filter_cons_of_pos (by simp), List.map_cons, List.sum_cons, ih, htimes, outcome,
          gain]
      · rw [Function.update_of_ne (Ne.symm htx)] at ih
        have htimes : times tx (c :: rest) = times tx rest := by simp [times, htx]
        rw [List.filter_cons_of_neg (by simpa using htx), ih, htimes]

end Calls

private theorem exists_before {cs : List (Direction × ℚ)}
    (hsorted : cs.Pairwise fun c d => c.2 ≤ d.2) : ∃ T : ℚ, T < 0 ∧ ∀ c ∈ cs, T ≤ c.2 := by
  rcases cs with _ | ⟨c, rest⟩
  · exact ⟨-1, by norm_num, fun c hc => by cases hc⟩
  · refine ⟨min (-1) c.2, (min_le_left _ _).trans_lt (by norm_num), fun d hd => ?_⟩
    rcases List.mem_cons.mp hd with rfl | hd
    · exact min_le_right _ _
    · exact (min_le_right _ _).trans ((List.pairwise_cons.mp hsorted).1 d hd)

section Quiet

variable {trace : List (ℚ × ℚ)}

/-- Quiet calls do not slip. -/
private theorem slips_of_quiet (h : WellTimed trace) : ∀ {c : ℕ} {ts : List ℚ},
    ts.Pairwise (· ≤ ·) → (∀ t ∈ ts, c ≤ reached trace t) →
    (∀ t ∈ ts, Passes trace t ∧ Summed trace t ∧ Quiet trace t) → slips trace c ts = 0 := by
  intro c ts
  induction ts generalizing c with
  | nil => intro _ _ _; rfl
  | cons t rest ih =>
      intro hsorted hc hquiet
      obtain ⟨ht, hrest⟩ := List.pairwise_cons.mp hsorted
      rw [List.forall_mem_cons] at hc hquiet
      obtain ⟨⟨hpasses, hsummed, hquiet⟩, hquiets⟩ := hquiet
      have hmono : ∀ u ∈ rest, reached trace t ≤ reached trace u := fun u hu =>
        reached_mono (ht u hu) (hquiets u hu).1
      rw [slips, ih hrest hmono hquiets, slip_of_summed hsummed hc.1,
        (quiet_iff h hpasses).mp hquiet, ite_self, mul_zero, add_zero]

/-- Calls that do not slip are quiet, one after another. -/
private theorem quiet_of_slips (h : WellTimed trace) (tx : Direction) :
    ∀ {c : ℕ} {cs : List (Direction × ℚ)}, cs.Pairwise (fun c d => c.2 ≤ d.2) →
    (∀ t, (tx, t) ∈ cs → c ≤ reached trace t) →
    (∀ t, (tx, t) ∈ cs → Passes trace t ∧ Summed trace t) →
    (trace.length ≤ c → bytes trace c = 0) →
    (∀ pre t, pre ++ [(tx, t)] <+: cs → slips trace c (times tx (pre ++ [(tx, t)])) = 0) →
    ∀ t, (tx, t) ∈ cs → Quiet trace t := by
  intro c cs
  induction cs generalizing c with
  | nil => intro _ _ _ _ _ t ht; cases ht
  | cons call rest ih =>
      intro hsorted hc hcalls hbefore hzero t ht
      obtain ⟨hle, hrest⟩ := List.pairwise_cons.mp hsorted
      obtain ⟨d, t₀⟩ := call
      by_cases htx : d = tx
      · subst htx
        obtain ⟨hpasses, hsummed⟩ := hcalls t₀ (List.mem_cons_self ..)
        have hc₀ := hc t₀ (List.mem_cons_self ..)
        have hfirst := hzero [] t₀ (List.prefix_append [(d, t₀)] rest)
        rw [List.nil_append, show times d [(d, t₀)] = [t₀] by simp [times], slips, slips, add_zero,
          slip_of_summed hsummed hc₀] at hfirst
        have hearly : early trace t₀ = 0 := by
          by_cases hlt : c < reached trace t₀
          · rw [if_pos hlt] at hfirst
            linarith
          · have heq : reached trace t₀ = c := le_antisymm (not_lt.mp hlt) hc₀
            rw [early, heq]
            split
            · rename_i hp
              exact hbefore hp
            · rfl
        have hquiet := (quiet_iff h hpasses).mpr hearly
        rcases List.mem_cons.mp ht with heq | ht
        · rwa [(Prod.mk.inj heq).2]
        · refine ih hrest (fun u hu => reached_mono (hle _ hu) ?_)
            (fun u hu => hcalls u (List.mem_cons_of_mem _ hu)) (fun hp => ?_)
            (fun pre u hpre => ?_) t ht
          · exact (hcalls u (List.mem_cons_of_mem _ hu)).1
          · rwa [early, if_pos hp] at hearly
          · have hcons := hzero ((d, t₀) :: pre) u (List.cons_prefix_cons.mpr ⟨rfl, hpre⟩)
            have htimes : times d ((d, t₀) :: pre ++ [(d, u)]) =
                t₀ :: times d (pre ++ [(d, u)]) := by simp [times]
            rwa [htimes, slips, slip_of_summed hsummed hc₀, hfirst, zero_add] at hcons
      · have hmem : (tx, t) ∈ rest :=
          (List.mem_cons.mp ht).resolve_left fun heq => htx (Prod.mk.inj heq).1.symm
        refine ih hrest (fun u hu => hc u (List.mem_cons_of_mem _ hu))
          (fun u hu => hcalls u (List.mem_cons_of_mem _ hu)) hbefore (fun pre u hpre => ?_) t hmem
        have hcons := hzero ((d, t₀) :: pre) u (List.cons_prefix_cons.mpr ⟨rfl, hpre⟩)
        have htimes : times tx ((d, t₀) :: pre ++ [(tx, u)]) = times tx (pre ++ [(tx, u)]) := by
          simp [times, htx]
        rwa [htimes] at hcons

end Quiet

/-- The calls in direction `tx` return together what is due by each of them. -/
def Replays (fuel : ℕ) (g : TrafficGenerator) (tx : Direction) (cs : List (Direction × ℚ)) :
    Prop :=
  ∀ pre T, pre ++ [(tx, T)] <+: cs →
    g.returned fuel tx (pre ++ [(tx, T)]) = some (8 * due (g.trace tx) T)

/-- At each call in direction `tx` the slips so far are what is late. -/
def Cancels (trace : List (ℚ × ℚ)) (tx : Direction) (cs : List (Direction × ℚ)) : Prop :=
  ∀ pre T, pre ++ [(tx, T)] <+: cs →
    slips trace 0 (times tx (pre ++ [(tx, T)])) = late trace T

/-- Without rounding only the occurrences counted early are wrong. -/
private theorem cancels_iff_quiet {trace : List (ℚ × ℚ)} (h : WellTimed trace) {tx : Direction}
    {cs : List (Direction × ℚ)} (hsorted : cs.Pairwise fun c d => c.2 ≤ d.2)
    (hexact : ∀ T, (tx, T) ∈ cs → Timed trace T ∧ Summed trace T) :
    Cancels trace tx cs ↔ ∀ T, (tx, T) ∈ cs → Quiet trace T := by
  have hpasses : ∀ T, (tx, T) ∈ cs → Passes trace T := fun T hT =>
    passes_of_timed h (hexact T hT).1
  have hlate : ∀ pre T, pre ++ [(tx, T)] <+: cs → late trace T = 0 := by
    intro pre T hpre
    have hT := hpre.subset (List.mem_append_right _ (List.mem_singleton_self _))
    exact late_of_timed h (hpasses T hT) (hexact T hT).1
  constructor
  · intro hcancels
    refine quiet_of_slips h tx hsorted (fun _ _ => Nat.zero_le _)
      (fun T hT => ⟨hpasses T hT, (hexact T hT).2⟩)
      (fun hp => absurd hp (not_le.mpr h.length_pos)) fun pre T hpre => ?_
    rw [hcancels pre T hpre, hlate pre T hpre]
  · intro hquiet pre T hpre
    rw [hlate pre T hpre]
    refine slips_of_quiet h ?_ (fun _ _ => Nat.zero_le _) fun t ht => ?_
    · exact List.pairwise_map.mpr ((hsorted.sublist hpre.sublist).filter _)
    · have ht := hpre.subset (mem_times.mp ht)
      exact ⟨hpasses t ht, (hexact t ht).2, hquiet t ht⟩

/-- A trace of quiet calls whose second pass is late by what the offset is rounded. -/
example :
    let trace := [(binary64.round 0.1, 0), (binary64.round 0.3, 10)]
    let g : TrafficGenerator := { ulTrace := trace, dlTrace := trace }
    g.returned 20 .ul [(.ul, binary64.round 0.3), (.ul, binary64.round 0.6),
      (.ul, binary64.round 0.61)] = some 240 ∧ 8 * due trace (binary64.round 0.61) = 160 := by
  decide +kernel

end TrafficGenerator

end NetworkEmulator
