/-
Collections whose members may be relabelled, cut in two and joined.

A container that hands its members on in pieces, or puts pieces together, is described
by what it may do to them: `R a b` says that `a` may become `b`, `C a b c` that it may
be cut into `b` and `c`, and `J a b c` that `a` and `b` may be joined to `c`.
`Recut R C J l l'` says that `l'` is what such steps, and reordering, make of `l`.
Two things are wanted of it: a property that every piece inherits holds of all pieces,
and a weight that the steps respect one by one is respected by all of them together.
-/
import Mathlib

variable {α : Type} {M : Type} [AddCommMonoid M]

/-- What relabelling, cutting, joining and reordering make of a list. -/
inductive Recut (R : α → α → Prop) (C J : α → α → α → Prop) : List α → List α → Prop
  | perm {l l' : List α} (h : l.Perm l') : Recut R C J l l'
  | relabel {a b : α} (l : List α) (h : R a b) : Recut R C J (a :: l) (b :: l)
  | cut {a b c : α} (l : List α) (h : C a b c) : Recut R C J (a :: l) (b :: c :: l)
  | join {a b c : α} (l : List α) (h : J a b c) : Recut R C J (a :: b :: l) (c :: l)
  | trans {l l' l'' : List α} (h : Recut R C J l l') (h' : Recut R C J l' l'') : Recut R C J l l''

/-- The relation of a container that never cuts, or never joins. -/
def Never : α → α → α → Prop := fun _ _ _ => False

/-- A property every piece inherits. -/
structure Inherited (R : α → α → Prop) (C J : α → α → α → Prop) (P : α → Prop) : Prop where
  relabel : ∀ {a b}, P a → R a b → P b
  cut : ∀ {a b c}, P a → C a b c → P b ∧ P c
  join : ∀ {a b c}, P a → P b → J a b c → P c

theorem Inherited.trivial (R : α → α → Prop) (C J : α → α → α → Prop) :
    Inherited R C J fun _ => True :=
  ⟨fun _ _ => True.intro, fun _ _ => ⟨True.intro, True.intro⟩, fun _ _ _ => True.intro⟩

/-- A weight that, on members with `P`, goes from one step to the next by `r`. -/
structure Respects (R : α → α → Prop) (C J : α → α → α → Prop) (P : α → Prop)
    (r : M → M → Prop) (w : α → M) : Prop where
  relabel : ∀ {a b}, P a → R a b → r (w b) (w a)
  cut : ∀ {a b c}, P a → C a b c → r (w b + w c) (w a)
  join : ∀ {a b c}, P a → P b → J a b c → r (w c) (w a + w b)

/-- The weight of a whole list. -/
def weight (w : α → M) (l : List α) : M := (l.map w).sum

section Weight

variable (w : α → M)

@[simp] theorem weight_nil : weight w [] = 0 := rfl

@[simp] theorem weight_cons (a : α) (l : List α) : weight w (a :: l) = w a + weight w l := by
  simp [weight]

@[simp] theorem weight_append (l l' : List α) :
    weight w (l ++ l') = weight w l + weight w l' := by
  simp [weight]

theorem weight_singleton (a : α) : weight w [a] = w a := by simp

theorem weight_flatMap {β : Type} (f : β → List α) (l : List β) :
    weight w (l.flatMap f) = weight (fun b => weight w (f b)) l := by
  induction l with
  | nil => rfl
  | cons b l ih => rw [List.flatMap_cons, weight_append, weight_cons, ih]

variable {w}

theorem weight_perm {l l' : List α} (h : l.Perm l') : weight w l = weight w l' :=
  (h.map w).sum_eq

theorem weight_eq_zero {l : List α} (h : ∀ a ∈ l, w a = 0) : weight w l = 0 := by
  induction l with
  | nil => rfl
  | cons a l ih =>
      rw [weight_cons, h a (List.mem_cons_self ..),
        ih fun b hb => h b (List.mem_cons_of_mem _ hb), add_zero]

/-- One member is another. -/
theorem weight_set {l : List α} {i : ℕ} {a : α} (h : l[i]? = some a) (b : α) :
    weight w (l.set i b) + w a = weight w l + w b := by
  induction l generalizing i with
  | nil => cases h
  | cons c l ih =>
      cases i with
      | zero =>
          obtain rfl := Option.some.inj h
          rw [List.set_cons_zero, weight_cons, weight_cons]
          abel
      | succ i =>
          rw [List.set_cons_succ, weight_cons, weight_cons, add_assoc, ih h, add_assoc]

/-- The weight of one key, in a list where no key comes twice. -/
theorem weight_key {κ : Type} [DecidableEq κ] (key : α → κ) (f : α → M) {l : List α}
    (hnd : (l.map key).Nodup) {a : α} (ha : a ∈ l) :
    weight (fun b => if key b = key a then f b else 0) l = f a := by
  induction l with
  | nil => cases ha
  | cons b l ih =>
      rw [List.map_cons, List.nodup_cons] at hnd
      rw [weight_cons]
      rcases List.mem_cons.mp ha with rfl | ha
      · have hrest : ∀ c ∈ l, key c ≠ key a := by
          intro c hc hk
          exact hnd.1 (hk ▸ List.mem_map_of_mem hc)
        rw [if_pos rfl, weight_eq_zero fun c hc => if_neg (hrest c hc), add_zero]
      · have hne : key b ≠ key a := by
          intro hk
          exact hnd.1 (hk ▸ List.mem_map_of_mem ha)
        rw [if_neg hne, zero_add, ih hnd.2 ha]

/-- A weight that is never negative is at least that of any one member. -/
theorem le_weight [PartialOrder M] [IsOrderedAddMonoid M] {l : List α} (h : ∀ a ∈ l, 0 ≤ w a)
    {a : α} (ha : a ∈ l) : w a ≤ weight w l :=
  List.single_le_sum (by simpa using h) _ (List.mem_map_of_mem ha)

/-- A weight that is never negative is nothing altogether only when it is nothing for
every member. -/
theorem weight_eq_zero_iff [PartialOrder M] [IsOrderedAddMonoid M] {l : List α}
    (h : ∀ a ∈ l, 0 ≤ w a) : weight w l = 0 ↔ ∀ a ∈ l, w a = 0 := by
  refine ⟨fun hzero a ha => le_antisymm ?_ (h a ha), weight_eq_zero⟩
  rw [← hzero]
  exact le_weight h ha

theorem weight_nonneg [PartialOrder M] [IsOrderedAddMonoid M] {l : List α}
    (h : ∀ a ∈ l, 0 ≤ w a) : 0 ≤ weight w l :=
  List.sum_nonneg (by simpa using h)

end Weight

namespace Recut

variable {R : α → α → Prop} {C J : α → α → α → Prop} {P : α → Prop} {w : α → M}

theorem refl (l : List α) : Recut R C J l l := perm (.refl l)

theorem append_right {l l' : List α} (h : Recut R C J l l') (m : List α) :
    Recut R C J (l ++ m) (l' ++ m) := by
  induction h with
  | perm h => exact perm (h.append_right m)
  | relabel l h => exact relabel (l ++ m) h
  | cut l h => exact cut (l ++ m) h
  | join l h => exact join (l ++ m) h
  | trans _ _ ih ih' => exact ih.trans ih'

theorem append_left {l l' : List α} (h : Recut R C J l l') (m : List α) :
    Recut R C J (m ++ l) (m ++ l') :=
  (perm List.perm_append_comm).trans ((h.append_right m).trans (perm List.perm_append_comm))

/-- Fewer steps rework less. -/
theorem mono {R' : α → α → Prop} {C' J' : α → α → α → Prop} (hR : ∀ {a b}, R a b → R' a b)
    (hC : ∀ {a b c}, C a b c → C' a b c) (hJ : ∀ {a b c}, J a b c → J' a b c) {l l' : List α}
    (h : Recut R C J l l') : Recut R' C' J' l l' := by
  induction h with
  | perm h => exact perm h
  | relabel l h => exact relabel l (hR h)
  | cut l h => exact cut l (hC h)
  | join l h => exact join l (hJ h)
  | trans _ _ ih ih' => exact ih.trans ih'

/-- **Every piece inherits what the whole list had.** -/
theorem forall_mem (hP : Inherited R C J P) {l l' : List α} (h : Recut R C J l l') :
    (∀ a ∈ l, P a) → ∀ a ∈ l', P a := by
  induction h with
  | perm h => intro hl a ha; exact hl a (h.mem_iff.mpr ha)
  | relabel l h =>
      intro hl
      simp only [List.forall_mem_cons] at hl ⊢
      exact ⟨hP.relabel hl.1 h, hl.2⟩
  | cut l h =>
      intro hl
      simp only [List.forall_mem_cons] at hl ⊢
      exact ⟨(hP.cut hl.1 h).1, (hP.cut hl.1 h).2, hl.2⟩
  | join l h =>
      intro hl
      simp only [List.forall_mem_cons] at hl ⊢
      exact ⟨hP.join hl.1 hl.2.1 h, hl.2.2⟩
  | trans _ _ ih ih' => exact fun hl => ih' (ih hl)

/-- **A weight the steps respect is respected by the whole rework.** -/
theorem weight_rel {r : M → M → Prop} (hrefl : ∀ x, r x x)
    (htrans : ∀ {x y z}, r x y → r y z → r x z) (hadd : ∀ {x y} z, r x y → r (x + z) (y + z))
    (hP : Inherited R C J P) (hw : Respects R C J P r w) {l l' : List α} (h : Recut R C J l l') :
    (∀ a ∈ l, P a) → r (weight w l') (weight w l) := by
  induction h with
  | perm h => intro _; rw [weight_perm h]; exact hrefl _
  | relabel l h =>
      intro hl
      simp only [List.forall_mem_cons] at hl
      rw [weight_cons, weight_cons]
      exact hadd _ (hw.relabel hl.1 h)
  | cut l h =>
      intro hl
      simp only [List.forall_mem_cons] at hl
      rw [weight_cons, weight_cons, weight_cons, ← add_assoc]
      exact hadd _ (hw.cut hl.1 h)
  | join l h =>
      intro hl
      simp only [List.forall_mem_cons] at hl
      rw [weight_cons, weight_cons, weight_cons, ← add_assoc]
      exact hadd _ (hw.join hl.1 hl.2.1 h)
  | trans h _ ih ih' => intro hl; exact htrans (ih' (h.forall_mem hP hl)) (ih hl)

/-- The pieces weigh together what the whole list weighed. -/
theorem weight_eq (hP : Inherited R C J P) (hw : Respects R C J P Eq w) {l l' : List α}
    (h : Recut R C J l l') (hl : ∀ a ∈ l, P a) : weight w l' = weight w l :=
  h.weight_rel (fun _ => rfl) Eq.trans (fun z hxy => congrArg (· + z) hxy) hP hw hl

/-- The pieces weigh together at most what the whole list weighed. -/
theorem weight_le [PartialOrder M] [IsOrderedAddMonoid M] (hP : Inherited R C J P)
    (hw : Respects R C J P (· ≤ ·) w) {l l' : List α} (h : Recut R C J l l')
    (hl : ∀ a ∈ l, P a) : weight w l' ≤ weight w l :=
  h.weight_rel le_refl le_trans (fun z hxy => add_le_add_left hxy z) hP hw hl

end Recut
