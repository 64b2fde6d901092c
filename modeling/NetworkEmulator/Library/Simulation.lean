/-
Simulation between two machines whose steps may fail.

When every step of one machine is a run of the other, then so is every run: whatever the
other keeps on all its runs holds, through the relation, of what the first one reaches.
-/
import NetworkEmulator.Library.Runs

namespace Simulation

open Runs

variable {σ τ ε δ : Type} {f : σ → ε → Option σ} {g : τ → δ → Option τ} {R : σ → τ → Prop}

/-- Steps that commute with a map of the states: so do runs. -/
theorem runAll_map {g : τ → ε → Option τ} {φ : σ → τ} (h : ∀ s e, g (φ s) e = (f s e).map φ)
    (s : σ) (es : List ε) : runAll g (φ s) es = (runAll f s es).map φ := by
  induction es generalizing s with
  | nil => rfl
  | cons e es ih =>
      rw [runAll, runAll, h]
      cases f s e with
      | none => rfl
      | some s₁ => exact ih s₁

/-- Steps that only look at `φ` of what comes. -/
theorem runAll_comp (φ : δ → ε) (s : σ) (ds : List δ) :
    runAll f s (ds.map φ) = runAll (fun s d => f s (φ d)) s ds := by
  induction ds generalizing s with
  | nil => rfl
  | cons d ds ih =>
      rw [List.map_cons, runAll, runAll]
      cases f s (φ d) with
      | none => rfl
      | some s₁ => exact ih s₁

/-! ### Runs of any length -/

/-- A run of steps that `P` admits leads from one state to another. -/
def Reaches (g : τ → δ → Option τ) (P : δ → Prop) (t t' : τ) : Prop :=
  ∃ ds, (∀ d ∈ ds, P d) ∧ runAll g t ds = some t'

variable {P : δ → Prop} {t t' t'' : τ}

theorem Reaches.refl (t : τ) : Reaches g P t t := ⟨[], fun d hd => by simp at hd, rfl⟩

theorem Reaches.trans (h : Reaches g P t t') (h' : Reaches g P t' t'') : Reaches g P t t'' := by
  obtain ⟨ds, hds, hrun⟩ := h
  obtain ⟨ds', hds', hrun'⟩ := h'
  refine ⟨ds ++ ds', fun d hd => ?_, ?_⟩
  · exact (List.mem_append.mp hd).elim (hds d) (hds' d)
  · rw [runAll_append, hrun]
    exact hrun'

theorem Reaches.single {d : δ} (hd : P d) (hstep : g t d = some t') : Reaches g P t t' :=
  ⟨[d], fun _ hd' => List.mem_singleton.mp hd' ▸ hd, runAll_cons.mpr ⟨t', hstep, rfl⟩⟩

theorem Reaches.mono {Q : δ → Prop} (hPQ : ∀ d, P d → Q d) (h : Reaches g P t t') :
    Reaches g Q t t' := by
  obtain ⟨ds, hds, hrun⟩ := h
  exact ⟨ds, fun d hd => hPQ d (hds d hd), hrun⟩

/-- What every step keeps holds wherever a run leads. -/
theorem Reaches.inv {I : τ → Prop} (hstep : ∀ t d t', P d → I t → g t d = some t' → I t')
    (h : Reaches g P t t') (hI : I t) : I t' := by
  obtain ⟨ds, hds, hrun⟩ := h
  exact runAll_inv (C := fun _ d => P d) (fun t d t' hI hd hs => hstep t d t' hd hI hs) hI
    (along_of_forall fun _ => hds) hrun

/-! ### Simulations -/

/-- Each step of `f` is a run of `g`. -/
def Simulates (f : σ → ε → Option σ) (g : τ → δ → Option τ) (R : σ → τ → Prop)
    (P : δ → Prop) : Prop :=
  ∀ s t e s', R s t → f s e = some s' → ∃ t', Reaches g P t t' ∧ R s' t'

theorem Simulates.mono {Q : δ → Prop} (hPQ : ∀ d, P d → Q d) (h : Simulates f g R P) :
    Simulates f g R Q := by
  intro s t e s' hR hstep
  obtain ⟨t', hreach, hR'⟩ := h s t e s' hR hstep
  exact ⟨t', hreach.mono hPQ, hR'⟩

/-- **Every run is a run of the other machine.** -/
theorem Simulates.run (h : Simulates f g R P) {s s' : σ} {es : List ε} (hR : R s t)
    (hrun : runAll f s es = some s') : ∃ t', Reaches g P t t' ∧ R s' t' := by
  induction es generalizing s t with
  | nil =>
      obtain rfl := Option.some.inj hrun
      exact ⟨t, .refl t, hR⟩
  | cons e es ih =>
      obtain ⟨s₁, hstep, hrun⟩ := runAll_cons.mp hrun
      obtain ⟨t₁, hreach, hR₁⟩ := h s t e s₁ hR hstep
      obtain ⟨t', hreach', hR'⟩ := ih hR₁ hrun
      exact ⟨t', hreach.trans hreach', hR'⟩

/-- Runs in rounds: when the calls of each round of `f` are answered by calls of `g`, then so
are all rounds. -/
theorem run_range {R : ℕ → σ → τ → Prop} {calls : ℕ → List ε} {calls' : ℕ → List δ} {n : ℕ}
    (hround : ∀ i < n, ∀ s t s', R i s t → runAll f s (calls i) = some s' →
      ∃ t', runAll g t (calls' i) = some t' ∧ R (i + 1) s' t')
    {s s' : σ} {t : τ} (hR : R 0 s t) (hrun : runAll f s ((List.range n).flatMap calls) = some s') :
    ∃ t', runAll g t ((List.range n).flatMap calls') = some t' ∧ R n s' t' := by
  induction n generalizing s' with
  | zero =>
      obtain rfl := Option.some.inj hrun
      exact ⟨t, rfl, hR⟩
  | succ n ih =>
      rw [List.range_succ, List.flatMap_append, runAll_append, Option.bind_eq_some_iff] at hrun
      obtain ⟨s₁, hrun, hlast⟩ := hrun
      rw [List.flatMap_singleton] at hlast
      obtain ⟨t₁, hruns, hR₁⟩ := ih (fun i hi => hround i (by omega)) hrun
      obtain ⟨t', hlast', hR'⟩ := hround n (by omega) s₁ t₁ s' hR₁ hlast
      refine ⟨t', ?_, hR'⟩
      rw [List.range_succ, List.flatMap_append, runAll_append, hruns, List.flatMap_singleton]
      exact hlast'

end Simulation
