/-
Searches that stop at the first element that fails.

A loop that walks a list and leaves it at the first element that fails its test finds
`takeWhile`; what one asks of it is often `filter`, all elements that meet the test.
The two agree exactly when nothing that meets the test stands behind something that does
not, which a table in ascending order ensures for every bound on its entries.
-/
import Mathlib

namespace LinearSearch

variable {α : Type} {p : α → Bool} {l : List α}

/-- Nothing that meets the test stands behind something that does not. -/
def Unblocked (p : α → Bool) (l : List α) : Prop := l.Pairwise fun a b => p b = true → p a = true

instance : Decidable (Unblocked p l) := inferInstanceAs (Decidable (List.Pairwise _ _))

theorem unblocked_cons_of_pos {a : α} (ha : p a = true) : Unblocked p (a :: l) ↔ Unblocked p l :=
  ⟨fun h => (List.pairwise_cons.mp h).2, fun h => List.pairwise_cons.mpr ⟨fun _ _ _ => ha, h⟩⟩

/-- Behind an element that fails, all have to fail. -/
theorem unblocked_cons_of_neg {a : α} (ha : p a = false) :
    Unblocked p (a :: l) ↔ ∀ b ∈ l, p b = false := by
  constructor
  · intro h b hb
    by_contra hpb
    have hpa := (List.pairwise_cons.mp h).1 b hb (by simpa using hpb)
    rw [ha] at hpa
    cases hpa
  · intro hnone
    refine List.pairwise_of_forall_mem_list fun x _ y hy hpy => ?_
    rcases List.mem_cons.mp hy with rfl | hy
    · rw [ha] at hpy
      cases hpy
    · rw [hnone y hy] at hpy
      cases hpy

/-- **The search passes over nothing** exactly when nothing is blocked. -/
theorem dropWhile_eq_filter_iff : l.dropWhile p = l.filter (fun a => !p a) ↔ Unblocked p l := by
  induction l with
  | nil => exact iff_of_true rfl List.Pairwise.nil
  | cons a l ih =>
      by_cases ha : p a = true
      · rw [List.dropWhile_cons_of_pos ha, List.filter_cons_of_neg (by simp [ha]), ih,
          unblocked_cons_of_pos ha]
      · have hfail : p a = false := by simpa using ha
        rw [List.dropWhile_cons_of_neg ha, List.filter_cons_of_pos (by simp [hfail]),
          List.cons.injEq, and_iff_right rfl, eq_comm, List.filter_eq_self,
          unblocked_cons_of_neg hfail]
        simp only [Bool.not_eq_true']

/-- **The search finds everything** exactly when nothing is blocked. -/
theorem takeWhile_eq_filter_iff : l.takeWhile p = l.filter p ↔ Unblocked p l := by
  induction l with
  | nil => exact iff_of_true rfl List.Pairwise.nil
  | cons a l ih =>
      by_cases ha : p a = true
      · rw [List.takeWhile_cons_of_pos ha, List.filter_cons_of_pos ha, List.cons.injEq,
          and_iff_right rfl, ih, unblocked_cons_of_pos ha]
      · have hfail : p a = false := by simpa using ha
        rw [List.takeWhile_cons_of_neg ha, List.filter_cons_of_neg ha, eq_comm,
          List.filter_eq_nil_iff, unblocked_cons_of_neg hfail]
        simp only [Bool.not_eq_true]

/-! ### Where the search stops -/

/-- The position of the first element that fails; past the end when none does. -/
def stop (p : α → Bool) : List α → ℕ
  | [] => 0
  | a :: l => if p a then stop p l + 1 else 0

theorem stop_cons_of_pos {a : α} (ha : p a = true) : stop p (a :: l) = stop p l + 1 := if_pos ha

theorem stop_cons_of_neg {a : α} (ha : p a = false) : stop p (a :: l) = 0 := by
  rw [stop, if_neg (by simp [ha])]

theorem stop_le (p : α → Bool) (l : List α) : stop p l ≤ l.length := by
  induction l with
  | nil => exact le_rfl
  | cons a l ih =>
      by_cases ha : p a = true
      · rw [stop_cons_of_pos ha, List.length_cons]
        omega
      · rw [stop_cons_of_neg (by simpa using ha)]
        omega

theorem stop_pos_iff {a : α} : 0 < stop p (a :: l) ↔ p a = true := by
  by_cases ha : p a = true
  · rw [stop_cons_of_pos ha]
    exact iff_of_true (Nat.succ_pos _) ha
  · rw [stop_cons_of_neg (by simpa using ha)]
    exact iff_of_false (lt_irrefl 0) ha

/-- The search goes through a part that passes as a whole. -/
theorem stop_append_of_all {l' : List α} (h : ∀ a ∈ l, p a = true) :
    stop p (l ++ l') = l.length + stop p l' := by
  induction l with
  | nil => simp
  | cons a l ih =>
      have hl : ∀ b ∈ l, p b = true := fun b hb => h b (List.mem_cons_of_mem a hb)
      rw [List.cons_append, stop_cons_of_pos (h a (List.mem_cons_self ..)), ih hl, List.length_cons]
      omega

/-- The search does not get beyond an element that fails. -/
theorem stop_append_of_neg {l' : List α} {a : α} (ha : p a = false) :
    stop p (l ++ a :: l') = stop p l := by
  induction l with
  | nil => exact stop_cons_of_neg ha
  | cons b l ih =>
      rw [List.cons_append]
      by_cases hb : p b = true
      · rw [stop_cons_of_pos hb, stop_cons_of_pos hb, ih]
      · have hfail : p b = false := by simpa using hb
        rw [stop_cons_of_neg hfail, stop_cons_of_neg hfail]

theorem length_takeWhile (p : α → Bool) (l : List α) : (l.takeWhile p).length = stop p l := by
  induction l with
  | nil => rfl
  | cons a l ih =>
      by_cases ha : p a = true
      · rw [List.takeWhile_cons_of_pos ha, stop_cons_of_pos ha, List.length_cons, ih]
      · rw [List.takeWhile_cons_of_neg ha, stop_cons_of_neg (by simpa using ha), List.length_nil]

/-- Where nothing is blocked, the search counts the elements that meet the test. -/
theorem Unblocked.stop_eq (h : Unblocked p l) : stop p l = (l.filter p).length := by
  rw [← length_takeWhile, takeWhile_eq_filter_iff.mpr h]

/-- A weaker test is passed at least as far. -/
theorem stop_mono {q : α → Bool} (h : ∀ a ∈ l, p a = true → q a = true) : stop p l ≤ stop q l := by
  induction l with
  | nil => exact le_rfl
  | cons a l ih =>
      by_cases ha : p a = true
      · rw [stop_cons_of_pos ha, stop_cons_of_pos (h a (List.mem_cons_self ..) ha)]
        exact Nat.succ_le_succ (ih fun b hb => h b (List.mem_cons_of_mem a hb))
      · rw [stop_cons_of_neg (by simpa using ha)]
        exact Nat.zero_le _

/-- A search that looks at `n` elements only. -/
theorem stop_take (p : α → Bool) (l : List α) (n : ℕ) : stop p (l.take n) = min n (stop p l) := by
  induction l generalizing n with
  | nil => rw [List.take_nil]; simp [stop]
  | cons a l ih =>
      cases n with
      | zero => simp [stop]
      | succ n =>
          rw [List.take_succ_cons]
          by_cases ha : p a = true
          · rw [stop_cons_of_pos ha, stop_cons_of_pos ha, ih]
            omega
          · have hfail : p a = false := by simpa using ha
            rw [stop_cons_of_neg hfail, stop_cons_of_neg hfail, Nat.min_zero]

/-- A search that says where it stopped, unless it went past the end. -/
theorem findIdx?_eq (p : α → Bool) (l : List α) :
    l.findIdx? (fun a => !p a) = if stop p l < l.length then some (stop p l) else none := by
  induction l with
  | nil => rfl
  | cons a l ih =>
      rw [List.findIdx?_cons]
      by_cases ha : p a = true
      · rw [if_neg (by simp [ha]), stop_cons_of_pos ha, ih, List.length_cons]
        by_cases hlt : stop p l < l.length
        · rw [if_pos hlt, if_pos (by omega)]
          rfl
        · rw [if_neg hlt, if_neg (by omega)]
          rfl
      · have hfail : p a = false := by simpa using ha
        rw [if_pos (by simp [ha]), stop_cons_of_neg hfail, if_pos (by simp)]

/-- **Where nothing is blocked, the elements before the position are those that meet the
test.** -/
theorem Unblocked.lt_stop_iff (h : Unblocked p l) {i : ℕ} (hi : i < l.length) :
    i < stop p l ↔ p l[i] = true := by
  induction l generalizing i with
  | nil => exact absurd hi (Nat.not_lt_zero i)
  | cons a l ih =>
      by_cases ha : p a = true
      · rw [stop_cons_of_pos ha]
        cases i with
        | zero => exact iff_of_true (Nat.succ_pos _) ha
        | succ i =>
            rw [Nat.add_lt_add_iff_right, List.getElem_cons_succ]
            exact ih ((unblocked_cons_of_pos ha).mp h) _
      · have hfail : p a = false := by simpa using ha
        rw [stop_cons_of_neg hfail]
        refine iff_of_false (Nat.not_lt_zero i) ?_
        cases i with
        | zero => exact ha
        | succ i =>
            have hil : i < l.length := by
              rw [List.length_cons] at hi
              omega
            have hnone := (unblocked_cons_of_neg hfail).mp h l[i] (List.getElem_mem hil)
            simpa using hnone

/-- In a table in ascending order no bound blocks anything. -/
theorem unblocked_of_sorted {K : Type} [LinearOrder K] {l : List K} (h : l.Pairwise (· ≤ ·))
    (x : K) : Unblocked (fun a => decide (a ≤ x)) l ∧ Unblocked (fun a => decide (a < x)) l :=
  ⟨h.imp fun hab hb => by simpa using hab.trans (by simpa using hb),
    h.imp fun hab hb => by simpa using lt_of_le_of_lt hab (by simpa using hb)⟩

/-- **In a table in ascending order the search finds the greatest entry up to a bound**, if
the bound is not below the first. -/
theorem exists_isGreatest {K : Type} [LinearOrder K] {a b : K} {l : List K}
    (h : (a :: l).Pairwise (· ≤ ·)) (hab : a ≤ b) :
    ∃ e, (a :: l)[stop (fun e => decide (e ≤ b)) l]? = some e ∧
      IsGreatest {e | e ∈ a :: l ∧ e ≤ b} e := by
  have hlt : stop (fun e => decide (e ≤ b)) l < (a :: l).length := by
    have hle := stop_le (fun e => decide (e ≤ b)) l
    rw [List.length_cons]
    omega
  have hfree := (unblocked_of_sorted h b).1
  have hstop : stop (fun e => decide (e ≤ b)) (a :: l) = stop (fun e => decide (e ≤ b)) l + 1 :=
    stop_cons_of_pos (by simpa using hab)
  refine ⟨_, List.getElem?_eq_getElem hlt, ⟨List.getElem_mem hlt, ?_⟩, ?_⟩
  · simpa using (hfree.lt_stop_iff hlt).mp (by omega)
  · intro e ⟨he, heb⟩
    obtain ⟨i, hi, rfl⟩ := List.mem_iff_getElem.mp he
    have hlast := (hfree.lt_stop_iff hi).mpr (by simpa using heb)
    have hle : i ≤ stop (fun e => decide (e ≤ b)) l := by omega
    exact h.rel_get_of_le (a := ⟨i, hi⟩) (b := ⟨_, hlt⟩) hle

end LinearSearch
