/-
Machines that renew a part of their state now and then.

A step that counts, and renews a part of the state when the count is a multiple of a period,
leaves that part as the last due step of the run left it.  `lastDue P n` is the number of the
last due step of the first `n`; it is less than a period old.
-/
import NetworkEmulator.Library.Runs

namespace Runs

/-- The last multiple of `P` below `n`. -/
def lastDue (P n : ℕ) : ℕ := (n - 1) / P * P

theorem lastDue_lt (P : ℕ) {n : ℕ} (hn : 0 < n) : lastDue P n < n := by
  have := Nat.div_mul_le_self (n - 1) P
  rw [lastDue]
  omega

/-- What is in use is less than a period old. -/
theorem lt_lastDue_add {P n : ℕ} (hP : 0 < P) (hn : 0 < n) : n < lastDue P n + P + 1 := by
  have := Nat.lt_div_mul_add hP (a := n - 1)
  rw [lastDue]
  omega

theorem lastDue_succ_of_dvd {P n : ℕ} (h : P ∣ n) : lastDue P (n + 1) = n := by
  rw [lastDue, Nat.add_sub_cancel]
  exact Nat.div_mul_cancel h

theorem lastDue_succ_of_not_dvd {P n : ℕ} (h : ¬ P ∣ n) : lastDue P (n + 1) = lastDue P n := by
  have hn : n ≠ 0 := by
    rintro rfl
    exact h (dvd_zero P)
  obtain ⟨m, rfl⟩ := Nat.exists_eq_succ_of_ne_zero hn
  rw [lastDue, lastDue, Nat.add_sub_cancel, Nat.succ_sub_one, Nat.succ_div, if_neg h, Nat.add_zero]

variable {σ ε τ : Type} {f : σ → ε → Option σ} {s s' : σ} {es : List ε} {I : σ → Prop}

/-- The count of a machine that counts its steps. -/
theorem count_of_runAll {count : σ → ℕ}
    (hstep : ∀ s e s', I s → f s e = some s' → I s' ∧ count s' = count s + 1)
    (hI : I s) (hrun : runAll f s es = some s') : I s' ∧ count s' = count s + es.length := by
  induction es generalizing s with
  | nil =>
      obtain rfl := Option.some.inj hrun
      exact ⟨hI, rfl⟩
  | cons e es ih =>
      obtain ⟨s₁, he, hrun⟩ := runAll_cons.mp hrun
      obtain ⟨hI₁, hcount⟩ := hstep s e s₁ hI he
      obtain ⟨hI', hcount'⟩ := ih hI₁ hrun
      refine ⟨hI', ?_⟩
      rw [hcount', hcount, List.length_cons]
      omega

/-- **Sample and hold.**  What a step leaves unless its number is a multiple of `P` is at the
end what the last such step has made of it. -/
theorem held (view : σ → τ) {count : σ → ℕ} {P : ℕ}
    (hstep : ∀ s e s', I s → f s e = some s' → I s' ∧ count s' = count s + 1)
    (hheld : ∀ s e s', I s → f s e = some s' → ¬ P ∣ count s → view s' = view s)
    (hI : I s) (hnew : count s = 0) (hne : es ≠ []) (hrun : runAll f s es = some s') :
    ∃ s₁ e s₂, runAll f s (es.take (lastDue P es.length)) = some s₁ ∧
      es[lastDue P es.length]? = some e ∧ f s₁ e = some s₂ ∧
      runAll f s (es.take (lastDue P es.length + 1)) = some s₂ ∧
      runAll f s₂ (es.drop (lastDue P es.length + 1)) = some s' ∧ I s₁ ∧ P ∣ count s₁ ∧
      view s' = view s₂ := by
  induction es using List.reverseRecOn generalizing s' with
  | nil => exact absurd rfl hne
  | append_singleton es e ih =>
      obtain ⟨s₁, hs₁, he⟩ := runAll_concat.mp hrun
      obtain ⟨hI₁, hcount₁⟩ := count_of_runAll hstep hI hs₁
      rw [hnew, Nat.zero_add] at hcount₁
      rw [List.length_append, List.length_singleton]
      by_cases hdue : P ∣ es.length
      · refine ⟨s₁, e, s', ?_, ?_, he, ?_, ?_, hI₁, hcount₁ ▸ hdue, rfl⟩
        · rw [lastDue_succ_of_dvd hdue, List.take_left]
          exact hs₁
        · rw [lastDue_succ_of_dvd hdue, List.getElem?_concat_length]
        · rw [lastDue_succ_of_dvd hdue, List.take_of_length_le (by simp)]
          exact hrun
        · rw [lastDue_succ_of_dvd hdue, List.drop_of_length_le (by simp)]
          rfl
      · have hes : es ≠ [] := by
          rintro rfl
          exact hdue (dvd_zero P)
        obtain ⟨t₁, e', t₂, ht₁, he', ht, ht₂, hrest, hIt, hP, hview⟩ := ih hes hs₁
        have hlt := lastDue_lt P (List.length_pos_iff.mpr hes)
        rw [lastDue_succ_of_not_dvd hdue]
        refine ⟨t₁, e', t₂, ?_, ?_, ht, ?_, ?_, hIt, hP, ?_⟩
        · rw [List.take_append_of_le_length hlt.le]
          exact ht₁
        · rw [List.getElem?_append_left hlt]
          exact he'
        · rw [List.take_append_of_le_length hlt]
          exact ht₂
        · rw [List.drop_append_of_le_length hlt]
          exact runAll_concat.mpr ⟨s₁, hrest, he⟩
        · rw [hheld s₁ e s' hI₁ he (hcount₁ ▸ hdue)]
          exact hview

end Runs
