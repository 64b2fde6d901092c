/-
Threads that act on one state.

A trace says what was done and by which thread, in the order it happened.  When what two
threads do can be swapped, a trace leads to the same state as any other in which every
thread does the same: only the order within each thread matters (`runAll_eq_of_proj`).  So
the threads may as well be taken in turn.
-/
import NetworkEmulator.Library.Runs

namespace Interleave

open Runs

variable {P α σ : Type}

/-- One step of a trace. -/
def act (f : P → σ → α → Option σ) (s : σ) (e : P × α) : Option σ := f e.1 s e.2

/-- What different threads do can be swapped. -/
def Independent (f : P → σ → α → Option σ) : Prop :=
  ∀ p q, p ≠ q → ∀ s a b, ((f p s a).bind fun s => f q s b) = (f q s b).bind fun s => f p s a

/-- The threads in turn, each with all it has to do. -/
def inTurn (prog : P → List α) (ps : List P) : List (P × α) :=
  ps.flatMap fun p => (prog p).map fun a => (p, a)

@[simp] theorem inTurn_cons (prog : P → List α) (p : P) (ps : List P) :
    inTurn prog (p :: ps) = ((prog p).map fun a => (p, a)) ++ inTurn prog ps := by
  simp [inTurn]

theorem runAll_act_map (f : P → σ → α → Option σ) (p : P) (l : List α) (s : σ) :
    runAll (act f) s (l.map fun a => (p, a)) = runAll (f p) s l := by
  induction l generalizing s with
  | nil => rfl
  | cons a l ih => exact congrArg _ (funext fun s => ih s)

/-- In turn, each thread runs to its end. -/
theorem runAll_inTurn_eq (f : P → σ → α → Option σ) (prog : P → List α) (ps : List P) (s : σ) :
    runAll (act f) s (inTurn prog ps) = runAll (fun s p => runAll (f p) s (prog p)) s ps := by
  induction ps generalizing s with
  | nil => rfl
  | cons p ps ih =>
      rw [inTurn_cons, runAll_append, runAll_act_map]
      exact congrArg _ (funext fun s => ih s)

section Order

variable [DecidableEq P] {f : P → σ → α → Option σ}

/-- What thread `p` does in a trace. -/
def proj (p : P) (t : List (P × α)) : List α := (t.filter fun e => e.1 = p).map Prod.snd

@[simp] theorem proj_nil (p : P) : proj p ([] : List (P × α)) = [] := rfl

@[simp] theorem proj_append (p : P) (t u : List (P × α)) :
    proj p (t ++ u) = proj p t ++ proj p u := by simp [proj]

theorem proj_cons_self (p : P) (a : α) (t : List (P × α)) :
    proj p ((p, a) :: t) = a :: proj p t := by simp [proj]

theorem proj_cons_of_ne {p q : P} (h : q ≠ p) (a : α) (t : List (P × α)) :
    proj p ((q, a) :: t) = proj p t := by simp [proj, h]

theorem proj_cons (p q : P) (a : α) (t : List (P × α)) :
    proj p ((q, a) :: t) = if q = p then a :: proj p t else proj p t := by
  by_cases h : q = p
  · rw [if_pos h, h, proj_cons_self]
  · rw [if_neg h, proj_cons_of_ne h]

theorem proj_map_self (p : P) (l : List α) : proj p (l.map fun a => (p, a)) = l := by
  induction l with
  | nil => rfl
  | cons a l ih => rw [List.map_cons, proj_cons_self, ih]

theorem proj_map_of_ne {p q : P} (h : q ≠ p) (l : List α) :
    proj p (l.map fun a => (q, a)) = [] := by
  induction l with
  | nil => rfl
  | cons a l ih => rw [List.map_cons, proj_cons_of_ne h, ih]

/-- In turn, each thread does what it has to do. -/
theorem proj_inTurn (prog : P → List α) {ps : List P} (hnodup : ps.Nodup) (p : P) :
    proj p (inTurn prog ps) = if p ∈ ps then prog p else [] := by
  induction ps with
  | nil => simp [inTurn]
  | cons q ps ih =>
      obtain ⟨hq, hnodup⟩ := List.nodup_cons.mp hnodup
      rw [inTurn_cons, proj_append, ih hnodup]
      by_cases h : q = p
      · subst h
        rw [proj_map_self, if_neg hq, if_pos (List.mem_cons_self ..), List.append_nil]
      · rw [proj_map_of_ne h, List.nil_append]
        simp [Ne.symm h]

/-- The first thing a thread does, and what is done before it. -/
theorem split_of_proj {p : P} {a : α} {l : List α} {t : List (P × α)}
    (h : proj p t = a :: l) : ∃ t₁ t₂, t = t₁ ++ (p, a) :: t₂ ∧ (∀ e ∈ t₁, e.1 ≠ p) ∧
      proj p t₂ = l := by
  induction t with
  | nil => cases h
  | cons e t ih =>
      obtain ⟨q, b⟩ := e
      by_cases hq : q = p
      · subst hq
        rw [proj_cons_self] at h
        obtain ⟨rfl, rfl⟩ := List.cons.inj h
        exact ⟨[], t, rfl, by simp, rfl⟩
      · rw [proj_cons_of_ne hq] at h
        obtain ⟨t₁, t₂, rfl, hne, hl⟩ := ih h
        refine ⟨(q, b) :: t₁, t₂, rfl, fun e he => ?_, hl⟩
        rcases List.mem_cons.mp he with rfl | he
        · exact hq
        · exact hne e he

theorem proj_eq_nil {p : P} {t : List (P × α)} (h : ∀ e ∈ t, e.1 ≠ p) : proj p t = [] := by
  induction t with
  | nil => rfl
  | cons e t ih =>
      obtain ⟨q, b⟩ := e
      rw [proj_cons_of_ne (h (q, b) (List.mem_cons_self ..))]
      exact ih fun e he => h e (List.mem_cons_of_mem _ he)

omit [DecidableEq P] in
/-- A step goes to the front past the steps of other threads. -/
theorem runAll_bubble (hf : Independent f) {p : P} (a : α) {t₁ : List (P × α)}
    (hne : ∀ e ∈ t₁, e.1 ≠ p) (t₂ : List (P × α)) (s : σ) :
    runAll (act f) s (t₁ ++ (p, a) :: t₂) = runAll (act f) s ((p, a) :: (t₁ ++ t₂)) := by
  induction t₁ generalizing s with
  | nil => rfl
  | cons e t₁ ih =>
      have hp : e.1 ≠ p := hne e (List.mem_cons_self ..)
      have hrest : ∀ s, runAll (act f) s (t₁ ++ (p, a) :: t₂)
          = (act f s (p, a)).bind fun s => runAll (act f) s (t₁ ++ t₂) := fun s =>
        ih (fun e he => hne e (List.mem_cons_of_mem _ he)) s
      calc runAll (act f) s (e :: t₁ ++ (p, a) :: t₂)
          = (act f s e).bind fun s => (act f s (p, a)).bind fun s =>
              runAll (act f) s (t₁ ++ t₂) := congrArg _ (funext hrest)
        _ = ((act f s e).bind fun s => act f s (p, a)).bind fun s =>
              runAll (act f) s (t₁ ++ t₂) := (Option.bind_assoc ..).symm
        _ = ((act f s (p, a)).bind fun s => act f s e).bind fun s =>
              runAll (act f) s (t₁ ++ t₂) := by
            rw [show ((act f s e).bind fun s => act f s (p, a)) = _ from hf e.1 p hp s e.2 a]
            rfl
        _ = runAll (act f) s ((p, a) :: (e :: t₁ ++ t₂)) := Option.bind_assoc ..

/-- **Only the order within each thread matters.** -/
theorem runAll_eq_of_proj (hf : Independent f) {t t' : List (P × α)}
    (h : ∀ p, proj p t = proj p t') (s : σ) : runAll (act f) s t = runAll (act f) s t' := by
  induction t generalizing t' s with
  | nil =>
      have hnil : t' = [] := by
        cases t' with
        | nil => rfl
        | cons e t' =>
            have he := h e.1
            rw [proj_nil, proj_cons, if_pos rfl] at he
            cases he
      rw [hnil]
  | cons e t ih =>
      obtain ⟨p, a⟩ := e
      obtain ⟨t₁, t₂, rfl, hne, hl⟩ := split_of_proj ((h p).symm.trans (proj_cons_self p a t))
      rw [runAll_bubble hf a hne t₂ s]
      refine congrArg (Option.bind (act f s (p, a))) (funext fun s => ih (fun q => ?_) s)
      by_cases hq : q = p
      · rw [hq, ← hl, proj_append, proj_eq_nil hne, List.nil_append]
      · have hq' := h q
        rw [proj_cons_of_ne (Ne.symm hq), proj_append, proj_cons_of_ne (Ne.symm hq)] at hq'
        rw [hq', proj_append]

/-- **Threads in any order are threads in turn.** -/
theorem runAll_inTurn (hf : Independent f) {prog : P → List α} {ps : List P} (hnodup : ps.Nodup)
    {t : List (P × α)} (h : ∀ p, proj p t = if p ∈ ps then prog p else []) (s : σ) :
    runAll (act f) s t = runAll (act f) s (inTurn prog ps) :=
  runAll_eq_of_proj hf (fun p => (h p).trans (proj_inTurn prog hnodup p).symm) s

/-- **No order fails unless the threads in turn do.**  What the threads have done when they
are not yet through, with the next step of one of them, is a run as well. -/
theorem isSome_of_inTurn (hf : Independent f) {prog : P → List α} {ps : List P}
    (hnodup : ps.Nodup) {t : List (P × α)}
    (h : ∀ p, ∃ rest, proj p t ++ rest = if p ∈ ps then prog p else []) {s : σ}
    (hrun : (runAll (act f) s (inTurn prog ps)).isSome = true) :
    (runAll (act f) s t).isSome = true := by
  choose rest hrest using h
  have hall : runAll (act f) s (t ++ inTurn rest ps) = runAll (act f) s (inTurn prog ps) := by
    refine runAll_inTurn hf hnodup (fun p => ?_) s
    rw [proj_append, proj_inTurn rest hnodup, ← hrest p]
    by_cases hp : p ∈ ps
    · rw [if_pos hp]
    · have hnone := hrest p
      rw [if_neg hp] at hnone
      rw [if_neg hp, List.append_nil, (List.append_eq_nil_iff.mp hnone).1,
        (List.append_eq_nil_iff.mp hnone).2, List.append_nil]
  rw [← hall, runAll_append] at hrun
  exact Option.isSome_of_isSome_bind hrun

end Order

end Interleave
