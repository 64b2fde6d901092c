/-
Two machines that answer alike.

A machine takes a call and gives an answer.  Two machines are in lockstep under a
condition when a relation between their states is kept by every call that meets the
condition, and related states give the same answer to it.  Then they give the same
answers to every run of calls that meet the condition.  The condition may read the
state of the second machine.

The second machine may be one that remembers all calls, and then its answers say what the
first one computes: each is what is due after the calls before it.
-/
import NetworkEmulator.Library.Runs

namespace Lockstep

variable {σ τ ε ω : Type}

/-- The answers to a run of calls. -/
def answers (f : σ → ε → ω × σ) : σ → List ε → List ω
  | _, [] => []
  | s, e :: es => (f s e).1 :: answers f (f s e).2 es

/-- The state after a run of calls. -/
def after (f : σ → ε → ω × σ) : σ → List ε → σ
  | s, [] => s
  | s, e :: es => after f (f s e).2 es

/-- Every call of the run meets `C` in the state it finds. -/
abbrev Meets (f : σ → ε → ω × σ) (C : σ → ε → Prop) : σ → List ε → Prop :=
  Runs.Along (fun s e => some (f s e).2) C

variable {f : σ → ε → ω × σ} {g : τ → ε → ω × τ} {C : τ → ε → Prop} {R : σ → τ → Prop}
  {s : σ} {t : τ}

theorem answers_append (es es' : List ε) :
    answers f s (es ++ es') = answers f s es ++ answers f (after f s es) es' := by
  induction es generalizing s with
  | nil => rfl
  | cons e es ih => simp only [List.cons_append, answers, after, ih]

/-- **What one call keeps, a run keeps**: the answers are the same, and so is the relation. -/
theorem answers_eq
    (hstep : ∀ s t e, R s t → C t e → (f s e).1 = (g t e).1 ∧ R (f s e).2 (g t e).2) :
    ∀ {s : σ} {t : τ} (es : List ε), R s t → Meets g C t es →
      answers f s es = answers g t es ∧ R (after f s es) (after g t es) := by
  intro s t es
  induction es generalizing s t with
  | nil => intro hR _; exact ⟨rfl, hR⟩
  | cons e es ih =>
      intro hR hC
      obtain ⟨hsame, hR'⟩ := hstep s t e hR hC.1
      obtain ⟨hrest, hend⟩ := ih hR' (hC.2 _ rfl)
      exact ⟨by rw [answers, answers, hsame, hrest], hend⟩

/-! ### A machine that remembers -/

/-- The machine that remembers every call, and gives each the answer that is due after those
before it. -/
def recorder (due : List ε → ε → ω) (past : List ε) (e : ε) : ω × List ε :=
  (due past e, past ++ [e])

theorem answers_recorder (due : List ε → ε → ω) (es : List ε) : ∀ past : List ε,
    answers (recorder due) past es = es.mapIdx fun i e => due (past ++ es.take i) e := by
  induction es with
  | nil => intro past; rfl
  | cons e es ih =>
      intro past
      rw [answers, List.mapIdx_cons, recorder, ih, List.take_zero, List.append_nil]
      simp only [List.take_succ_cons, List.append_assoc, List.singleton_append]

/-- **A machine whose state tells what is due** answers every call of a run as is due after
the calls before it. -/
theorem answers_eq_due {due : List ε → ε → ω} {Tells : List ε → σ → Prop} (hinit : Tells [] s)
    (hstep : ∀ past s e, Tells past s → (f s e).1 = due past e ∧ Tells (past ++ [e]) (f s e).2)
    (es : List ε) : answers f s es = es.mapIdx fun i e => due (es.take i) e := by
  have hmeets : Meets (recorder due) (fun _ _ => True) [] es :=
    Runs.along_of_forall fun _ _ _ => trivial
  have hsame := (answers_eq (g := recorder due) (R := fun s past => Tells past s)
    (fun s past e htells _ => hstep past s e htells) es hinit hmeets).1
  rw [hsame, answers_recorder]
  rfl

end Lockstep
