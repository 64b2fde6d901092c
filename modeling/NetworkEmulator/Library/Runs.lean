/-
Runs of a machine whose step may fail.

`runAll f s es` feeds the events `es` to the step function `f` one after another.
What a machine keeps is proved once per event: `runAll_inv` carries it over a whole
run, and lets each event come with a condition on the state it meets.
-/
import Mathlib

namespace Runs

variable {σ ε : Type}

/-- Running the events in turn; `none` as soon as one of them fails. -/
def runAll (f : σ → ε → Option σ) : σ → List ε → Option σ
  | s, [] => some s
  | s, e :: es => (f s e).bind fun s => runAll f s es

/-- Every event of the run meets the condition `C` in the state it is applied to. -/
def Along (f : σ → ε → Option σ) (C : σ → ε → Prop) : σ → List ε → Prop
  | _, [] => True
  | s, e :: es => C s e ∧ ∀ s', f s e = some s' → Along f C s' es

variable {f : σ → ε → Option σ} {C : σ → ε → Prop} {s s' : σ} {es : List ε}

@[simp] theorem runAll_nil : runAll f s [] = some s := rfl

theorem runAll_cons {e : ε} : runAll f s (e :: es) = some s' ↔
    ∃ s₁, f s e = some s₁ ∧ runAll f s₁ es = some s' := Option.bind_eq_some_iff

/-- Runs one after the other. -/
theorem runAll_append {es' : List ε} :
    runAll f s (es ++ es') = (runAll f s es).bind fun s => runAll f s es' := by
  induction es generalizing s with
  | nil => rfl
  | cons e es ih =>
      rw [List.cons_append, runAll, runAll, Option.bind_assoc]
      exact congrArg _ (funext fun s₁ => ih)

/-- A run ends with its last event. -/
theorem runAll_concat {e : ε} : runAll f s (es ++ [e]) = some s' ↔
    ∃ s₁, runAll f s es = some s₁ ∧ f s₁ e = some s' := by
  rw [runAll_append, Option.bind_eq_some_iff]
  refine exists_congr fun s₁ => and_congr_right fun _ => ?_
  rw [runAll_cons]
  constructor
  · rintro ⟨s₂, he, hs⟩
    rwa [← Option.some.inj hs]
  · intro he
    exact ⟨s', he, rfl⟩

/-- **What every event keeps, every run keeps.** -/
theorem runAll_inv {I : σ → Prop}
    (hstep : ∀ s e s', I s → C s e → f s e = some s' → I s') :
    ∀ {s : σ} {es : List ε}, I s → Along f C s es → runAll f s es = some s' → I s' := by
  intro s es
  induction es generalizing s with
  | nil => intro hI _ hrun; obtain rfl := Option.some.inj hrun; exact hI
  | cons e es ih =>
      intro hI hC hrun
      obtain ⟨s₁, he, hrun⟩ := runAll_cons.mp hrun
      exact ih (hstep s e s₁ hI hC.1 he) (hC.2 s₁ he) hrun

theorem along_of_forall (h : ∀ s, ∀ e ∈ es, C s e) : Along f C s es := by
  induction es generalizing s with
  | nil => trivial
  | cons e es ih =>
      exact ⟨h s e (List.mem_cons_self ..), fun s' _ =>
        ih fun s e he => h s e (List.mem_cons_of_mem _ he)⟩

/-- Two conditions met along a run are met together. -/
theorem Along.and {D : σ → ε → Prop} (h : Along f C s es) (h' : Along f D s es) :
    Along f (fun s e => C s e ∧ D s e) s es := by
  induction es generalizing s with
  | nil => trivial
  | cons e es ih => exact ⟨⟨h.1, h'.1⟩, fun s' hs' => ih (h.2 s' hs') (h'.2 s' hs')⟩

/-- Whether a condition that can be evaluated is met along a run can be evaluated. -/
instance Along.instDecidable [∀ s e, Decidable (C s e)] :
    ∀ (s : σ) (es : List ε), Decidable (Along f C s es)
  | _, [] => .isTrue trivial
  | s, e :: es =>
    match h : f s e with
    | none => decidable_of_iff (C s e) ⟨fun hC => ⟨hC, fun s' hs' => by rw [h] at hs'; cases hs'⟩,
        fun hC => hC.1⟩
    | some s₁ =>
      have : Decidable (Along f C s₁ es) := instDecidable s₁ es
      decidable_of_iff (C s e ∧ Along f C s₁ es)
        ⟨fun hC => ⟨hC.1, fun s' hs' => Option.some.inj (h.symm.trans hs') ▸ hC.2⟩,
          fun hC => ⟨hC.1, hC.2 s₁ h⟩⟩

/-- The condition on the last event is one on the state the others lead to. -/
theorem along_concat {e : ε} (h : Along f C s es) (he : ∀ s', runAll f s es = some s' → C s' e) :
    Along f C s (es ++ [e]) := by
  induction es generalizing s with
  | nil => exact ⟨he s rfl, fun _ _ => trivial⟩
  | cons x es ih =>
      refine ⟨h.1, fun s₁ hs₁ => ih (h.2 s₁ hs₁) fun s' hs' => he s' ?_⟩
      exact runAll_cons.mpr ⟨s₁, hs₁, hs'⟩

/-- The rule for an invariant that needs nothing of the events. -/
theorem runAll_inv' {I : σ → Prop} (hstep : ∀ s e s', I s → f s e = some s' → I s')
    (hI : I s) (hrun : runAll f s es = some s') : I s' :=
  runAll_inv (C := fun _ _ => True) (fun s e s' h _ => hstep s e s' h) hI
    (along_of_forall fun _ _ _ => trivial) hrun

/-- **What holds in every state reached.**  Where an event keeps a property exactly when it
meets a condition, the property holds all along a run exactly when all events meet it. -/
theorem forall_reached_iff {I : σ → Prop}
    (hstep : ∀ s e s', I s → f s e = some s' → (I s' ↔ C s e)) :
    ∀ {s : σ} {es : List ε}, I s → runAll f s es = some s' →
      ((∀ cs s₁, cs <+: es → runAll f s cs = some s₁ → I s₁) ↔ Along f C s es) := by
  intro s es
  induction es generalizing s with
  | nil =>
      intro hI _
      refine iff_of_true (fun cs s₁ hcs hrun => ?_) trivial
      obtain rfl := List.prefix_nil.mp hcs
      obtain rfl := Option.some.inj hrun
      exact hI
  | cons e es ih =>
      intro hI hrun
      obtain ⟨s₁, he, hrest⟩ := runAll_cons.mp hrun
      constructor
      · intro h
        have hI₁ : I s₁ := h [e] s₁ (List.prefix_append [e] es) (runAll_cons.mpr ⟨s₁, he, rfl⟩)
        refine ⟨(hstep s e s₁ hI he).mp hI₁, fun s₂ hs₂ => ?_⟩
        obtain rfl := Option.some.inj (he.symm.trans hs₂)
        refine (ih hI₁ hrest).mp fun cs s₃ hcs hs₃ => h (e :: cs) s₃ ?_ ?_
        · exact List.cons_prefix_cons.mpr ⟨rfl, hcs⟩
        · exact runAll_cons.mpr ⟨s₁, he, hs₃⟩
      · intro h cs s₂ hcs hs₂
        have hI₁ : I s₁ := (hstep s e s₁ hI he).mpr h.1
        cases cs with
        | nil => obtain rfl := Option.some.inj hs₂; exact hI
        | cons c cs =>
            obtain ⟨rfl, hrestcs⟩ := List.cons_prefix_cons.mp hcs
            obtain ⟨s₃, hc, hs₂⟩ := runAll_cons.mp hs₂
            obtain rfl := Option.some.inj (he.symm.trans hc)
            exact (ih hI₁ hrest).mpr (h.2 s₁ he) cs s₂ hrestcs hs₂

/-- What a run was evaluated to, up to `view`. -/
theorem view_eq {τ : Type} {o : Option σ} {x : τ} (view : σ → τ) (hview : o.map view = some x)
    (hs : o = some s) : view s = x := by
  rw [hs] at hview
  exact Option.some.inj hview

/-- A run that was evaluated up to `view`, for what follows of the state it ends in. -/
theorem exists_of_view {τ : Type} {o : Option σ} {x : τ} {P : σ → Prop} (view : σ → τ)
    (hview : o.map view = some x) (h : ∀ s, o = some s → view s = x → P s) :
    ∃ s, o = some s ∧ P s := by
  obtain ⟨s, hs, hx⟩ := Option.map_eq_some_iff.mp hview
  exact ⟨s, hs, h s hs hx⟩

end Runs
