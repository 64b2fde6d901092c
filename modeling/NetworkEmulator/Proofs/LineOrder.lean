/-
Whether a configuration depends on the order of its lines.

Two texts are rearrangements of one another when their `[UE]` sections are the same in order,
the others in any order and anywhere, and the keys of a section in any order, after `ue_id` in
a `[UE]` section.  A field is what its last setting converts to, and rearranging the lines
keeps the settings of a key up to their order.  Three things still tell the texts apart: a
variance is read with the `random_v` of the lines before it, the map file is chosen with the
scenario type of the lines before the last of `[eNBConfig]`, and a key that stands in two
sections of one name has two settings.  `SameInForce` says that none of them does.
-/
import NetworkEmulator.Proofs.Loading

namespace NetworkEmulator

open Runs

/-! ### Settings of one key -/

section Rows

variable {F : Type} {kind : F → Kind} {rows : List (Row kind)} {row : Row kind}
variable {randomV randomV' : Bool} {ls ls' : List KeyLine}

/-- The last settings of a row convert to the same. -/
def SameSetting (row : Row kind) (a b : List (String × Bool)) : Prop :=
  ∀ p ∈ a.getLast?, ∀ q ∈ b.getLast?, row.conversion.value p.2 p.1 = row.conversion.value q.2 q.1

instance : (k : Kind) → DecidableEq k.Ty
  | .int => inferInstanceAs (DecidableEq ℤ)
  | .real => inferInstanceAs (DecidableEq ℚ)
  | .bool => inferInstanceAs (DecidableEq Bool)
  | .text => inferInstanceAs (DecidableEq String)

instance (row : Row kind) (a b : List (String × Bool)) : Decidable (SameSetting row a b) := by
  unfold SameSetting
  infer_instance

/-- The key is read through `random_v`. -/
def Conversion.isVariance : {k : Kind} → Conversion k → Bool
  | _, .variance => true
  | _, _ => false

theorem Conversion.value_eq {k : Kind} {c : Conversion k} (h : c.isVariance = false)
    (value : String) : c.value randomV value = c.value randomV' value := by
  cases c with
  | variance => cases h
  | _ => rfl

theorem settings_isSome (hparses : ∀ l ∈ ls, Parses rows l) (hrow : row ∈ rows)
    {p : String × Bool} (hp : p ∈ settings row randomV ls) :
    (row.conversion.value p.2 p.1).isSome := by
  obtain ⟨r, hr, rfl⟩ := List.mem_map.mp hp
  obtain ⟨hmem, hsets⟩ := List.mem_filter.mp hr
  have hline : r.1 ∈ ls := by
    clear hsets hp hparses hr
    induction ls generalizing randomV with
    | nil => cases hmem
    | cons l ls ih =>
        rcases List.mem_cons.mp hmem with rfl | hmem
        · exact List.mem_cons_self ..
        · exact List.mem_cons_of_mem _ (ih hmem)
  obtain ⟨hmode, hkey, hsome⟩ := of_decide_eq_true hsets
  rwa [Conversion.value_isSome (hparses _ hline row hrow hmode.symm hkey.symm)]

/-- **What two orders of the settings make of a field is the same when the last ones are.** -/
theorem settled_eq_iff {x : (kind row.field).Ty} {a b : List (String × Bool)}
    (hperm : (a.map Prod.fst).Perm (b.map Prod.fst))
    (ha : ∀ p ∈ a, (row.conversion.value p.2 p.1).isSome)
    (hb : ∀ p ∈ b, (row.conversion.value p.2 p.1).isSome) :
    row.settled x a = row.settled x b ↔ SameSetting row a b := by
  rcases List.eq_nil_or_concat' a with rfl | ⟨a, p, rfl⟩
  · have hnil : b = [] := List.map_eq_nil_iff.mp hperm.symm.eq_nil
    simp [hnil, SameSetting]
  · rcases List.eq_nil_or_concat' b with rfl | ⟨b, q, rfl⟩
    · have hnil := hperm.eq_nil
      simp at hnil
    · obtain ⟨v, hv⟩ := Option.isSome_iff_exists.mp (ha p (by simp))
      obtain ⟨w, hw⟩ := Option.isSome_iff_exists.mp (hb q (by simp))
      simp [Row.settled, SameSetting, hv, hw]

private theorem eq_of_perm {α : Type} {a b : List α} (hperm : a.Perm b) (hone : a.length ≤ 1) :
    a = b := by
  cases a with
  | nil => exact hperm.symm.eq_nil.symm
  | cons x a =>
      have hnil : a = [] := List.length_eq_zero_iff.mp (by simpa using hone)
      subst hnil
      exact List.singleton_perm.mp hperm

/-- A key that is set once, and not through `random_v`, is set to the same in any order. -/
theorem SameSetting.of_once {a b : List (String × Bool)}
    (hperm : (a.map Prod.fst).Perm (b.map Prod.fst)) (hone : a.length ≤ 1)
    (hplain : row.conversion.isVariance = false) : SameSetting row a b := by
  have heq : a.map Prod.fst = b.map Prod.fst := eq_of_perm hperm (by simpa using hone)
  intro p hp q hq
  have hvalue : p.1 = q.1 := by
    have hlast := congrArg List.getLast? heq
    rw [List.getLast?_map, List.getLast?_map, hp, hq] at hlast
    exact Option.some.inj hlast
  rw [hvalue]
  exact Conversion.value_eq hplain _

end Rows

namespace ConfigurationLoader

/-! ### Rearranging a text -/

/-- The same `[UE]` section, its keys after the first in any order. -/
def SameUe (s t : ConfigSection) : Prop :=
  s.mode = t.mode ∧ s.entries.head? = t.entries.head? ∧ s.entries.tail.Perm t.entries.tail

/-- The same section of another name, its keys in any order. -/
def SameOther (s t : ConfigSection) : Prop := s.mode = t.mode ∧ s.entries.Perm t.entries

/-- The sections moved, but no `[UE]` section past another, and the keys in them permuted. -/
structure Rearranged (f g : List ConfigSection) : Prop where
  ues : List.Forall₂ SameUe (f.filter fun s => s.mode = .ue) (g.filter fun s => s.mode = .ue)
  others : ∃ h, (f.filter fun s => s.mode ≠ .ue).Perm h ∧
    List.Forall₂ SameOther h (g.filter fun s => s.mode ≠ .ue)

theorem SameUe.perm {s t : ConfigSection} (h : SameUe s t) : s.entries.Perm t.entries := by
  obtain ⟨-, hhead, htail⟩ := h
  cases hs : s.entries with
  | nil =>
      rw [hs] at hhead
      rw [List.head?_eq_none_iff.mp hhead.symm]
  | cons e es =>
      rw [hs] at hhead htail
      obtain ⟨es', ht⟩ := List.head?_eq_some_iff.mp hhead.symm
      rw [ht] at htail ⊢
      exact htail.cons e

theorem keyLines_perm {s t : ConfigSection} (hmode : s.mode = t.mode)
    (h : s.entries.Perm t.entries) : s.keyLines.Perm t.keyLines := by
  rw [ConfigSection.keyLines, ConfigSection.keyLines, hmode]
  exact h.map _

variable {f g : List ConfigSection}

private theorem mem_of_forall₂ {α : Type} {R : α → α → Prop} {xs ys : List α} {y : α}
    (h : List.Forall₂ R xs ys) (hy : y ∈ ys) : ∃ x ∈ xs, R x y := by
  induction h with
  | nil => cases hy
  | cons hr _ ih =>
      rcases List.mem_cons.mp hy with rfl | hy
      · exact ⟨_, List.mem_cons_self .., hr⟩
      · obtain ⟨x, hx, hr⟩ := ih hy
        exact ⟨x, List.mem_cons_of_mem _ hx, hr⟩

/-- Every section of the rearranged text comes from one of the text. -/
theorem Rearranged.origin (h : Rearranged f g) {t : ConfigSection} (ht : t ∈ g) :
    ∃ s ∈ f, s.mode = t.mode ∧ s.entries.Perm t.entries ∧
      (t.mode = .ue → s.entries.head? = t.entries.head?) := by
  by_cases hmode : t.mode = .ue
  · obtain ⟨s, hs, hsame⟩ := mem_of_forall₂ h.ues (List.mem_filter.mpr ⟨ht, decide_eq_true hmode⟩)
    exact ⟨s, (List.mem_filter.mp hs).1, hsame.1, hsame.perm, fun _ => hsame.2.1⟩
  · obtain ⟨k, hperm, hothers⟩ := h.others
    obtain ⟨s, hs, hsame⟩ := mem_of_forall₂ hothers
      (List.mem_filter.mpr ⟨ht, decide_eq_true hmode⟩)
    have hmem := List.mem_filter.mp (hperm.mem_iff.mpr hs)
    exact ⟨s, hmem.1, hsame.1, hsame.2, fun hue => absurd hue hmode⟩

private theorem keyLines_forall₂ {R : ConfigSection → ConfigSection → Prop}
    (hR : ∀ s t, R s t → s.keyLines.Perm t.keyLines) (h : List.Forall₂ R f g) :
    (keyLines f).Perm (keyLines g) := by
  induction h with
  | nil => exact List.Perm.nil
  | cons hst _ ih =>
      rw [keyLines, keyLines, List.flatMap_cons, List.flatMap_cons]
      exact (hR _ _ hst).append ih

private theorem keyLines_filter (f : List ConfigSection) :
    (keyLines (f.filter fun s => s.mode = .ue) ++ keyLines (f.filter fun s => s.mode ≠ .ue)).Perm
      (keyLines f) := by
  have hsplit := List.filter_append_perm (fun s : ConfigSection => s.mode = .ue) f
  simpa [keyLines] using hsplit.flatMap_right ConfigSection.keyLines

/-- **Rearranging a text keeps its lines, up to their order.** -/
theorem Rearranged.lines_perm (h : Rearranged f g) : (keyLines f).Perm (keyLines g) := by
  obtain ⟨k, hperm, hothers⟩ := h.others
  have hues := keyLines_forall₂ (fun s t hst => keyLines_perm hst.1 hst.perm) h.ues
  have hrest := keyLines_forall₂ (fun s t hst => keyLines_perm hst.1 hst.2) hothers
  have hmoved := hperm.flatMap_right ConfigSection.keyLines
  exact (keyLines_filter f).symm.trans ((hues.append (hmoved.trans hrest)).trans
    (keyLines_filter g))

theorem settings_perm {F : Type} {kind : F → Kind} (row : Row kind) {ls ls' : List KeyLine}
    (h : ls.Perm ls') (randomV randomV' : Bool) :
    ((settings row randomV ls).map Prod.fst).Perm ((settings row randomV' ls').map Prod.fst) := by
  rw [settings_values, settings_values]
  exact (h.filter _).map _

/-- A rearranged text is as well-formed. -/
theorem Rearranged.wellFormed (h : Rearranged f g) (hwell : WellFormed f) : WellFormed g where
  starts t ht hue := by
    obtain ⟨s, hs, hmode, -, hhead⟩ := h.origin ht
    rw [← hhead hue]
    exact hwell.starts s hs (hmode.trans hue)
  once t ht := by
    obtain ⟨s, hs, -, hperm, -⟩ := h.origin ht
    exact (hperm.map Prod.fst).nodup_iff.mp (hwell.once s hs)
  parses l hl := hwell.parses l (h.lines_perm.mem_iff.mpr hl)

/-! ### The UEs of a rearranged text -/

private theorem length_filter_key {s : ConfigSection} (honce : (s.entries.map Prod.fst).Nodup)
    (key : String) : (s.keyLines.filter fun l => l.2.1 = key).length ≤ 1 := by
  have hcount := List.nodup_iff_count_le_one.mp honce key
  rw [List.count, List.countP_map] at hcount
  rw [← List.countP_eq_length_filter, ConfigSection.keyLines, List.countP_map]
  exact le_trans (List.countP_mono_left fun e _ he => by simpa using he) hcount

private theorem filter_eq {s t : ConfigSection} (h : SameUe s t)
    (honce : (s.entries.map Prod.fst).Nodup) {p : KeyLine → Bool} {key : String}
    (hkey : ∀ l, p l → l.2.1 = key) : s.keyLines.filter p = t.keyLines.filter p := by
  refine eq_of_perm ((keyLines_perm h.1 h.perm).filter p) ?_
  refine le_trans ?_ (length_filter_key honce key)
  rw [← List.countP_eq_length_filter, ← List.countP_eq_length_filter]
  exact List.countP_mono_left fun l _ hl => decide_eq_true (hkey l hl)

private theorem randomVAfter_filter (randomV : Bool) (ls : List KeyLine) :
    randomVAfter randomV (ls.filter fun l => l.1 = .ue ∧ l.2.1 = "random_v") =
      randomVAfter randomV ls := by
  induction ls generalizing randomV with
  | nil => rfl
  | cons l ls ih =>
      by_cases hl : l.1 = .ue ∧ l.2.1 = "random_v"
      · rw [List.filter_cons_of_pos (by simpa using hl)]
        exact ih (nextRandomV randomV l)
      · have hskip : nextRandomV randomV l = randomV := if_neg hl
        rw [List.filter_cons_of_neg (by simpa using hl), ih, randomVAfter, randomVAfter,
          List.foldl_cons, hskip]

private theorem randomVAfter_other (randomV : Bool) {s : ConfigSection} (hmode : s.mode ≠ .ue) :
    randomVAfter randomV s.keyLines = randomV := by
  have hnil : s.keyLines.filter (fun l => l.1 = .ue ∧ l.2.1 = "random_v") = [] :=
    List.filter_eq_nil_iff.mpr fun l hl hue =>
      hmode ((mode_of_mem hl).symm.trans (of_decide_eq_true hue).1)
  rw [← randomVAfter_filter, hnil]
  rfl

private theorem ueSections_filter (randomV : Bool) (f : List ConfigSection) :
    ueSections randomV (f.filter fun s => s.mode = .ue) = ueSections randomV f := by
  induction f generalizing randomV with
  | nil => rfl
  | cons s f ih =>
      by_cases hmode : s.mode = .ue
      · rw [List.filter_cons_of_pos (by simpa using hmode), ueSections, ih, ueSections]
      · rw [List.filter_cons_of_neg (by simpa using hmode), ih, ueSections,
          if_neg hmode, randomVAfter_other randomV hmode, List.nil_append]

private theorem ueSections_same {ss ts : List ConfigSection} (h : List.Forall₂ SameUe ss ts)
    (honce : ∀ s ∈ ss, (s.entries.map Prod.fst).Nodup) (randomV : Bool) :
    List.Forall₂ (fun s t => s.1 = t.1 ∧ s.2 ∈ ss ∧ SameUe s.2 t.2) (ueSections randomV ss)
      (ueSections randomV ts) := by
  induction h generalizing randomV with
  | nil => exact .nil
  | @cons s t ss ts hsame _ ih =>
      have hrandom : randomVAfter randomV s.keyLines = randomVAfter randomV t.keyLines := by
        rw [← randomVAfter_filter, ← randomVAfter_filter randomV t.keyLines]
        exact congrArg _ (filter_eq hsame (honce s (List.mem_cons_self ..))
          fun l hl => (of_decide_eq_true hl).2)
      have hrest := ih (fun s hs => honce s (List.mem_cons_of_mem _ hs))
        (randomVAfter randomV s.keyLines)
      rw [ueSections, ueSections, ← hrandom, ← hsame.1]
      refine List.rel_append ?_ (hrest.imp fun _ _ h => ⟨h.1, List.mem_cons_of_mem _ h.2.1, h.2.2⟩)
      by_cases hmode : s.mode = .ue
      · rw [if_pos hmode, if_pos hmode]
        exact .cons ⟨rfl, List.mem_cons_self .., hsame⟩ .nil
      · rw [if_neg hmode, if_neg hmode]
        exact .nil

/-- **A text and its rearrangement have the same `[UE]` sections**, in order and with the same
`random_v` set before each. -/
theorem Rearranged.ueSections (h : Rearranged f g) (hwell : WellFormed f) :
    List.Forall₂ (fun s t => s.1 = t.1 ∧ s.2 ∈ f ∧ SameUe s.2 t.2)
      (ConfigurationLoader.ueSections false f) (ConfigurationLoader.ueSections false g) := by
  have hsame := ueSections_same h.ues
    (fun s hs => hwell.once s (List.mem_filter.mp hs).1) false
  rw [ueSections_filter, ueSections_filter] at hsame
  exact hsame.imp fun _ _ h => ⟨h.1, (List.mem_filter.mp h.2.1).1, h.2.2⟩

/-- The row of `var_perc`. -/
abbrev varPercRow : Row UeField.kind := ⟨.ue, "var_perc", .varPerc, .variance⟩

private theorem variance_of_ueRows : ∀ row ∈ ueRows, row.conversion.isVariance = true →
    row = varPercRow := by
  have hkeys : ∀ row ∈ ueRows, row.conversion.isVariance = true → row.key = "var_perc" := by
    decide
  intro row hrow hvariance
  have hmem : varPercRow ∈ ueRows := by simp [ueRows]
  exact List.inj_on_of_nodup_map ueRows_isTable.keys hrow hmem
    (Prod.ext (mode_of_ueRows row hrow) (hkeys row hrow hvariance))

private theorem length_settings {s : ConfigSection} (honce : (s.entries.map Prod.fst).Nodup)
    (row : Row UeField.kind) (randomV : Bool) :
    (settings row randomV s.keyLines).length ≤ 1 := by
  rw [← List.length_map (f := Prod.fst), settings_values, List.length_map]
  refine le_trans ?_ (length_filter_key honce row.key)
  rw [← List.countP_eq_length_filter, ← List.countP_eq_length_filter]
  exact List.countP_mono_left fun l _ hl => decide_eq_true (of_decide_eq_true hl).2.1

/-- Two orders of a `[UE]` section make the same UE when its `var_perc` converts to the same. -/
theorem MadeOf.eq_iff {env : LoaderEnv} {s t : Bool × ConfigSection} {u v : UeFullConfig}
    (hs : MadeOf env s u) (ht : MadeOf env t v) (hrandom : s.1 = t.1) (hsame : SameUe s.2 t.2)
    (honce : (s.2.entries.map Prod.fst).Nodup) (hparses : ∀ l ∈ s.2.keyLines, Parses ueRows l) :
    u = v ↔ SameSetting varPercRow (settings varPercRow s.1 s.2.keyLines)
      (settings varPercRow t.1 t.2.keyLines) := by
  have hlines := keyLines_perm hsame.1 hsame.perm
  have hperm (row : Row UeField.kind) := settings_perm row hlines s.1 t.1
  have hiff : ∀ row ∈ ueRows, ∀ x, (row.settled x (settings row s.1 s.2.keyLines) =
      row.settled x (settings row t.1 t.2.keyLines) ↔
      SameSetting row (settings row s.1 s.2.keyLines) (settings row t.1 t.2.keyLines)) := by
    intro row hrow x
    refine settled_eq_iff (hperm row) (fun p => settings_isSome hparses hrow)
      (fun p => settings_isSome (fun l hl => hparses l ?_) hrow)
    exact hlines.mem_iff.mpr hl
  constructor
  · rintro rfl
    have hmem : varPercRow ∈ ueRows := by simp [ueRows]
    refine (hiff varPercRow hmem (UeField.initial env.unset .varPerc)).mp ?_
    exact (hs.fields.held varPercRow hmem).symm.trans (ht.fields.held varPercRow hmem)
  · intro hvar
    have hid : u.id = v.id := by
      have hhead := hs.id.symm.trans (hsame.2.1.trans ht.id)
      exact congrArg Prod.snd (Option.some.inj hhead)
    have hfields : u.fields = v.fields := by
      refine hs.fields.ext ht.fields fun row hrow => (hiff row hrow _).mpr ?_
      by_cases hvariance : row.conversion.isVariance = true
      · rwa [variance_of_ueRows row hrow hvariance]
      · exact SameSetting.of_once (hperm row) (length_settings honce row s.1)
          (Bool.not_eq_true _ ▸ hvariance)
    have hmobility : u.mobilityRandomV = v.mobilityRandomV := by
      rw [hs.mobilityRandomV, ht.mobilityRandomV, hrandom]
    have htraffic : u.trafficRandomV = v.trafficRandomV := by
      rw [hs.trafficRandomV, ht.trafficRandomV, hrandom]
    obtain ⟨_, _, _, _⟩ := u
    obtain ⟨_, _, _, _⟩ := v
    rw [UeFullConfig.mk.injEq]
    exact ⟨hid, hmobility, htraffic, hfields⟩

private theorem eq_iff_forall₂ {α β γ : Type} {R : α → γ → Prop} {R' : β → γ → Prop}
    {S P : α → β → Prop} (hiff : ∀ x y u v, R x u → R' y v → S x y → (u = v ↔ P x y))
    {xs : List α} {ys : List β} {us vs : List γ} (hxs : List.Forall₂ R xs us)
    (hys : List.Forall₂ R' ys vs) (hxy : List.Forall₂ S xs ys) :
    us = vs ↔ List.Forall₂ P xs ys := by
  induction hxy generalizing us vs with
  | nil =>
      obtain rfl := List.forall₂_nil_left_iff.mp hxs
      obtain rfl := List.forall₂_nil_left_iff.mp hys
      simp
  | cons hs _ ih =>
      obtain ⟨u, us, hu, hus, rfl⟩ := List.forall₂_cons_left_iff.mp hxs
      obtain ⟨v, vs, hv, hvs, rfl⟩ := List.forall₂_cons_left_iff.mp hys
      rw [List.cons.injEq, List.forall₂_cons, hiff _ _ _ _ hu hv hs, ih hus hvs]

/-! ### When the order does not matter -/

/-- The fields the PHY, PDCP, scenario, MAC and TDD configurations are made of. -/
def loadedFields : List LoaderField :=
  phyEnbConfig ++ pdcpConfigUl ++ pdcpConfigDl ++ scenarioConfig ++ macConfig ++ tddConfig

/-- The same UEs, configurations and map file. -/
structure SameConfig (c c' : ConfigurationLoader) : Prop where
  ues : c.ueCList = c'.ueCList
  fields : ∀ f ∈ loadedFields, c.fields f = c'.fields f
  mapFile : c.mapFile = c'.mapFile

/-- **What two texts read their keys with is the same.**  The `var_perc` of each UE and the
other variances are read with a `random_v` that makes them the same; a key that has several
settings, as it stands in several sections of one name, has the same last one; and the
scenario type and the frequency that are set at the last line of `[eNBConfig]` have the same
map. -/
structure SameInForce (env : LoaderEnv) (f g : List ConfigSection) : Prop where
  varPerc : List.Forall₂ (fun s t => SameSetting varPercRow (settings varPercRow s.1 s.2.keyLines)
    (settings varPercRow t.1 t.2.keyLines)) (ueSections false f) (ueSections false g)
  keys : ∀ row ∈ fieldRows, row.field ∈ loadedFields →
    (row.conversion.isVariance ∨ 1 < (settings row false (keyLines f)).length) →
    SameSetting row (settings row false (keyLines f)) (settings row false (keyLines g))
  map : ∀ p ∈ mapInputs (keyLines f), ∀ q ∈ mapInputs (keyLines g),
    getClosestMapFile env.basePath p.1 p.2 = getClosestMapFile env.basePath q.1 q.2

/-- The variances the configurations are made of. -/
example : ∀ row ∈ fieldRows, row.field ∈ loadedFields → row.conversion.isVariance →
    row.key ∈ ["backhaul_d_var", "air_delay_var_ul", "rtx_period_var_ul", "air_delay_var_dl",
      "rtx_period_var_dl"] := by decide +kernel

private theorem mapInputs_eq_none {ls : List KeyLine} :
    mapInputs ls = none ↔ ∀ l ∈ ls, l.1 ≠ .eNBConfig := by
  have hnil : (ls.rdropWhile fun l => l.1 ≠ .eNBConfig) = [] ↔ ∀ l ∈ ls, l.1 ≠ .eNBConfig := by
    simp [List.rdropWhile_eq_nil_iff]
  rw [mapInputs, ← hnil]
  by_cases hls : (ls.rdropWhile fun l => l.1 ≠ .eNBConfig) = []
  · rw [if_pos hls, eq_self, true_iff]
    exact hls
  · rw [if_neg hls, iff_false_right hls]
    exact Option.some_ne_none _

variable {env : LoaderEnv} {c c' : ConfigurationLoader}

private theorem Rearranged.mapFile_iff (h : Rearranged f g) (hc : Loaded env (keyLines f) c)
    (hc' : Loaded env (keyLines g) c') :
    c.mapFile = c'.mapFile ↔ ∀ p ∈ mapInputs (keyLines f), ∀ q ∈ mapInputs (keyLines g),
      getClosestMapFile env.basePath p.1 p.2 = getClosestMapFile env.basePath q.1 q.2 := by
  have hnone : mapInputs (keyLines f) = none ↔ mapInputs (keyLines g) = none := by
    rw [mapInputs_eq_none, mapInputs_eq_none]
    exact forall_congr' fun l => imp_congr_left h.lines_perm.mem_iff
  rw [hc.mapFile, hc'.mapFile]
  cases hp : mapInputs (keyLines f) with
  | none => simp [hnone.mp hp]
  | some p =>
      cases hq : mapInputs (keyLines g) with
      | none => rw [hnone.mpr hq] at hp; cases hp
      | some q => simp

private theorem Rearranged.fields_iff (h : Rearranged f g) (hf : WellFormed f)
    (hg : WellFormed g) (hc : Loaded env (keyLines f) c) (hc' : Loaded env (keyLines g) c') :
    (∀ x ∈ loadedFields, c.fields x = c'.fields x) ↔
      ∀ row ∈ fieldRows, row.field ∈ loadedFields →
        (row.conversion.isVariance ∨ 1 < (settings row false (keyLines f)).length) →
        SameSetting row (settings row false (keyLines f)) (settings row false (keyLines g)) := by
  have hiff : ∀ row ∈ fieldRows, (c.fields row.field = c'.fields row.field ↔
      SameSetting row (settings row false (keyLines f)) (settings row false (keyLines g))) := by
    intro row hrow
    rw [hc.fields.held row hrow, hc'.fields.held row hrow]
    exact settled_eq_iff (settings_perm row h.lines_perm false false)
      (fun p => settings_isSome (fun l hl => (hf.parses l hl).2) hrow)
      (fun p => settings_isSome (fun l hl => (hg.parses l hl).2) hrow)
  constructor
  · intro hfields row hrow hloaded _
    exact (hiff row hrow).mp (hfields row.field hloaded)
  · intro hkeys x hx
    by_cases hrow : ∃ row ∈ fieldRows, row.field = x
    · obtain ⟨row, hrow, rfl⟩ := hrow
      refine (hiff row hrow).mpr ?_
      by_cases hcond : row.conversion.isVariance ∨ 1 < (settings row false (keyLines f)).length
      · exact hkeys row hrow hx hcond
      · obtain ⟨hplain, hone⟩ := not_or.mp hcond
        exact SameSetting.of_once (settings_perm row h.lines_perm false false)
          (not_lt.mp hone) (Bool.not_eq_true _ ▸ hplain)
    · have hno : ∀ row ∈ fieldRows, row.field ≠ x := fun row hmem heq => hrow ⟨row, hmem, heq⟩
      rw [hc.fields.rest x hno, hc'.fields.rest x hno]

/-- **When a configuration does not depend on the order of its lines.**  A well-formed text and
any rearrangement of it both load, and to the same UEs, configurations and map file exactly
when their keys are read with the same in force. -/
theorem load_order_iff (env : LoaderEnv) (f g : List String)
    (hwell : WellFormed (sectionsOf f)) (h : Rearranged (sectionsOf f) (sectionsOf g)) :
    ∃ c c', load env f = some c ∧ load env g = some c' ∧
      (SameConfig c c' ↔ SameInForce env (sectionsOf f) (sectionsOf g)) := by
  have hwell' := h.wellFormed hwell
  obtain ⟨c, hload, hc, hues⟩ := load_wellFormed env hwell
  obtain ⟨c', hload', hc', hues'⟩ := load_wellFormed env hwell'
  have hsections := h.ueSections hwell
  have hlist : c.ueCList = c'.ueCList ↔ _ := eq_iff_forall₂
    (fun s t u v hu hv hst => hu.eq_iff hv hst.1 hst.2.2 (hwell.once s.2 hst.2.1)
      fun l hl => (hwell.parses l (mem_keyLines hst.2.1 hl)).1) hues hues' hsections
  have hfields := h.fields_iff hwell hwell' hc hc'
  have hmap := h.mapFile_iff hc hc'
  refine ⟨c, c', hload, hload', fun hsame => ⟨?_, ?_, ?_⟩, fun hforce => ⟨?_, ?_, ?_⟩⟩
  · exact hlist.mp hsame.ues
  · exact hfields.mp hsame.fields
  · exact hmap.mp hsame.mapFile
  · exact hlist.mpr hforce.varPerc
  · exact hfields.mpr hforce.keys
  · exact hmap.mpr hforce.map

/-- The values a plain UE has in the fields without one. -/
def plainEnv : LoaderEnv where
  basePath := "maps/"
  unset f := match f.kind with
    | .int => (0 : ℤ)
    | .real => (0 : ℚ)
    | .bool => false
    | .text => ""

/-- Two keys that are swapped, in a UE, and the scenario moved, but not past `[eNBConfig]`. -/
theorem load_order_swapped : ∃ c c',
    load plainEnv ["[UE]", "ue_id: a", "n_ues: 3", "random_v: true", "[Scenario]",
      "scenario_type: 1", "[eNBConfig]", "frequency: 3500000000.0"] = some c ∧
    load plainEnv ["[Scenario]", "scenario_type: 1", "[UE]", "ue_id: a", "random_v: true",
      "n_ues: 3", "[eNBConfig]", "frequency: 3500000000.0"] = some c' ∧
    SameConfig c c' := by
  obtain ⟨c, c', hc, hc', hiff⟩ := load_order_iff plainEnv
    ["[UE]", "ue_id: a", "n_ues: 3", "random_v: true", "[Scenario]",
      "scenario_type: 1", "[eNBConfig]", "frequency: 3500000000.0"]
    ["[Scenario]", "scenario_type: 1", "[UE]", "ue_id: a", "random_v: true",
      "n_ues: 3", "[eNBConfig]", "frequency: 3500000000.0"]
    ⟨by decide +kernel, by decide +kernel, by decide +kernel⟩
    ⟨by unfold SameUe; decide +kernel, _, .refl _, by unfold SameOther; decide +kernel⟩
  exact ⟨c, c', hc, hc', hiff.mpr
    ⟨by decide +kernel, by decide +kernel, by decide +kernel⟩⟩

/-- A delay variance whose section stands before the UE that sets `random_v` is lost. -/
theorem load_random_v_late : ∃ c c',
    WellFormed (sectionsOf ["[UE]", "ue_id: a", "random_v: true", "[PDCP_RLC]",
      "backhaul_d_var: 0.5"]) ∧
    Rearranged (sectionsOf ["[UE]", "ue_id: a", "random_v: true", "[PDCP_RLC]",
        "backhaul_d_var: 0.5"])
      (sectionsOf ["[PDCP_RLC]", "backhaul_d_var: 0.5", "[UE]", "ue_id: a", "random_v: true"]) ∧
    load plainEnv ["[UE]", "ue_id: a", "random_v: true", "[PDCP_RLC]",
      "backhaul_d_var: 0.5"] = some c ∧
    load plainEnv ["[PDCP_RLC]", "backhaul_d_var: 0.5", "[UE]", "ue_id: a",
      "random_v: true"] = some c' ∧
    c.fields .backhaulDVar = (1 / 2 : ℚ) ∧ c'.fields .backhaulDVar = (0 : ℚ) ∧
    ¬SameConfig c c' := by
  obtain ⟨c, hc, hvar⟩ := exists_of_view (P := fun c => c.fields .backhaulDVar = (1 / 2 : ℚ))
    (fun c => c.fields .backhaulDVar)
    (show (load plainEnv ["[UE]", "ue_id: a", "random_v: true", "[PDCP_RLC]",
      "backhaul_d_var: 0.5"]).map _ = some (1 / 2 : ℚ) by decide +kernel) fun _ _ h => h
  obtain ⟨c', hc', hvar'⟩ := exists_of_view (P := fun c => c.fields .backhaulDVar = (0 : ℚ))
    (fun c => c.fields .backhaulDVar)
    (show (load plainEnv ["[PDCP_RLC]", "backhaul_d_var: 0.5", "[UE]", "ue_id: a",
      "random_v: true"]).map _ = some (0 : ℚ) by decide +kernel) fun _ _ h => h
  refine ⟨c, c', ⟨by decide +kernel, by decide +kernel, by decide +kernel⟩,
    ⟨by unfold SameUe; decide +kernel, _, .refl _, by unfold SameOther; decide +kernel⟩,
    hc, hc', hvar, hvar', fun hsame => ?_⟩
  have heq : (1 / 2 : ℚ) = 0 :=
    hvar.symm.trans ((hsame.fields .backhaulDVar (by decide)).trans hvar')
  norm_num at heq

end ConfigurationLoader

end NetworkEmulator
