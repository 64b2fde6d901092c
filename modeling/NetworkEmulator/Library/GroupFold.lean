/-
Folding a list into a map of accumulators.

Every item goes to the accumulator of its key, which starts from a default the first time.
`getElem?_foldl_into` says what the fold leaves at a key: the fold of the items of that key,
in their order, or nothing when there are none.
-/
import Mathlib

namespace GroupFold

variable {K V X : Type} [Ord K] [Std.TransOrd K]

/-- An item goes to the accumulator of its key. -/
def into (key : X → K) (upd : V → X → V) (d : V) (m : Std.ExtTreeMap K V compare) (x : X) :
    Std.ExtTreeMap K V compare :=
  m.alter (key x) fun v => some (upd (v.getD d) x)

variable {key : X → K} {upd : V → X → V} {d : V}

theorem getElem?_into_self {m : Std.ExtTreeMap K V compare} {x : X} {k : K} (h : key x = k) :
    (into key upd d m x)[k]? = some (upd (m[k]?.getD d) x) := by
  subst h
  simp [into]

variable [Std.LawfulEqOrd K]

theorem getElem?_into_of_ne {m : Std.ExtTreeMap K V compare} {x : X} {k : K} (h : key x ≠ k) :
    (into key upd d m x)[k]? = m[k]? := by
  simp [into, Std.ExtTreeMap.getElem?_alter, h]

variable [DecidableEq K]

/-- **A fold into a map is the fold of each group.** -/
theorem getElem?_foldl_into (l : List X) (k : K) :
    (l.foldl (into key upd d) ∅)[k]? =
      if l.filter (key · = k) = [] then none else some ((l.filter (key · = k)).foldl upd d) := by
  induction l using List.reverseRecOn with
  | nil => simp
  | append_singleton l x ih =>
      rw [List.foldl_append, List.foldl_cons, List.foldl_nil, List.filter_append]
      by_cases h : key x = k
      · rw [getElem?_into_self h, ih]
        by_cases hl : l.filter (key · = k) = []
        · simp [hl, h]
        · simp [hl, h]
      · rw [getElem?_into_of_ne h, ih]
        simp [h]

/-- The entries of a map at one key. -/
theorem toList_filter_key (m : Std.ExtTreeMap K V compare) (k : K) :
    m.toList.filter (fun e => e.1 = k) = m[k]?.toList.map (k, ·) := by
  have hnodup : m.toList.Nodup := m.distinct_keys_toList.imp fun h heq => h (by rw [heq]; simp)
  have hmem : ∀ e, e ∈ m.toList.filter (fun e => e.1 = k) ↔ e ∈ m[k]?.toList.map (k, ·) := by
    rintro ⟨k', v⟩
    rw [List.mem_filter, Std.ExtTreeMap.mem_toList_iff_getElem?_eq_some, decide_eq_true_eq]
    constructor
    · rintro ⟨hv, rfl⟩
      simp [hv]
    · intro he
      obtain ⟨v', hv', he⟩ := List.mem_map.mp he
      obtain ⟨rfl, rfl⟩ := Prod.mk.inj he
      exact ⟨Option.mem_toList.mp hv', rfl⟩
  have hnodup' : (m[k]?.toList.map (k, ·)).Nodup := by
    cases m[k]? with
    | none => simp
    | some v => simp
  have hperm := (List.perm_ext_iff_of_nodup (hnodup.filter _) hnodup').mpr hmem
  cases hk : m[k]? with
  | none => simpa [hk] using hperm
  | some v => simpa [hk] using hperm

/-- A map is what its entries come to, inserted one after another. -/
theorem foldl_insert_toList (m : Std.ExtTreeMap K V compare) :
    m.toList.foldl (fun acc e => acc.insert e.1 e.2) ∅ = m := by
  rw [← Std.ExtTreeMap.ofList_eq_foldl]
  refine Std.ExtTreeMap.ext_getElem? fun k => ?_
  cases hk : m[k]? with
  | none =>
      refine Std.ExtTreeMap.getElem?_ofList_of_contains_eq_false ?_
      rw [Bool.eq_false_iff]
      intro hmem
      obtain ⟨e, he, rfl⟩ := List.mem_map.mp (List.contains_iff_mem.mp hmem)
      rw [Std.ExtTreeMap.mem_toList_iff_getElem?_eq_some.mp he] at hk
      cases hk
  | some v =>
      exact Std.ExtTreeMap.getElem?_ofList_of_mem Std.ReflCmp.compare_self
        m.distinct_keys_toList (Std.ExtTreeMap.mem_toList_iff_getElem?_eq_some.mpr hk)

end GroupFold
