/-
What a configuration file leaves in the loader.

The loader reads a file line by line, with what it has read so far in its state.  Here the
result is told from the text alone.  A key line is read with the `random_v` that the lines
before it have set; the lines that set a field are its settings, and the field holds what the
last of them converts to, or what it held at the start.  The map file is chosen with what is
settled up to the last line of `[eNBConfig]`.

`FieldsSettled` says this of a table of fields and is kept by `storeKey`, so a run over any lines
keeps it; the UEs of a file are its `[UE]` sections, each settled by its own lines.
-/
import NetworkEmulator.Model.ConfigurationLoader

namespace NetworkEmulator

open Runs

/-! ### The key lines of a text -/

/-- A key with its value, and the section it stands in. -/
abbrev KeyLine := Mode × String × String

/-- The key lines of a section. -/
def ConfigSection.keyLines (s : ConfigSection) : List KeyLine := s.entries.map (s.mode, ·)

/-- The key lines of some sections. -/
def keyLines (sections : List ConfigSection) : List KeyLine :=
  sections.flatMap ConfigSection.keyLines

theorem keyLines_concat (sections : List ConfigSection) (s : ConfigSection) :
    keyLines (sections ++ [s]) = keyLines sections ++ s.keyLines := by
  simp [keyLines]

theorem mem_keyLines {sections : List ConfigSection} {s : ConfigSection} (hs : s ∈ sections)
    {l : KeyLine} (hl : l ∈ s.keyLines) : l ∈ keyLines sections :=
  List.mem_flatMap.mpr ⟨s, hs, hl⟩

theorem mode_of_mem {s : ConfigSection} {l : KeyLine} (hl : l ∈ s.keyLines) : l.1 = s.mode := by
  obtain ⟨e, -, rfl⟩ := List.mem_map.mp hl
  rfl

/-! ### Readings and settings -/

/-- `random_v` after a line. -/
def nextRandomV (randomV : Bool) (l : KeyLine) : Bool :=
  if l.1 = .ue ∧ l.2.1 = "random_v" then (flagOf l.2.2).getD randomV else randomV

/-- `random_v` after some lines. -/
def randomVAfter (randomV : Bool) (ls : List KeyLine) : Bool := ls.foldl nextRandomV randomV

/-- The lines, each with the `random_v` it is read with. -/
def readings (randomV : Bool) : List KeyLine → List (KeyLine × Bool)
  | [] => []
  | l :: ls => (l, randomV) :: readings (nextRandomV randomV l) ls

theorem readings_append {randomV : Bool} (ls ls' : List KeyLine) : readings randomV (ls ++ ls') =
    readings randomV ls ++ readings (randomVAfter randomV ls) ls' := by
  induction ls generalizing randomV with
  | nil => rfl
  | cons l ls ih => rw [List.cons_append, readings, ih, readings, List.cons_append]; rfl

/-- What a value converts to; `none` leaves the field. -/
def Conversion.value {k : Kind} (c : Conversion k) (randomV : Bool) (value : String) :
    Option k.Ty := (c.apply randomV value).join

/-- The line is one of the row and sets its field. -/
def Row.sets {F : Type} {kind : F → Kind} (row : Row kind) (l : KeyLine) : Bool :=
  l.1 = row.mode ∧ l.2.1 = row.key ∧ (row.conversion.value true l.2.2).isSome

section Rows

variable {F : Type} {kind : F → Kind}
variable {rows : List (Row kind)} {row : Row kind} {randomV : Bool}

/-- The lines that set the field of a row: their values, with the `random_v` of each. -/
def settings (row : Row kind) (randomV : Bool) (ls : List KeyLine) : List (String × Bool) :=
  ((readings randomV ls).filter fun r => row.sets r.1).map fun r => (r.1.2.2, r.2)

/-- What the last of some settings makes of a field. -/
def Row.settled (row : Row kind) (x : (kind row.field).Ty) (settings : List (String × Bool)) :
    (kind row.field).Ty :=
  (settings.getLast?.bind fun p => row.conversion.value p.2 p.1).getD x

theorem settings_append (ls ls' : List KeyLine) : settings row randomV (ls ++ ls') =
    settings row randomV ls ++ settings row (randomVAfter randomV ls) ls' := by
  simp [settings, readings_append]

theorem settings_single (l : KeyLine) :
    settings row randomV [l] = if row.sets l then [(l.2.2, randomV)] else [] := by
  by_cases hsets : row.sets l <;> simp [settings, readings, hsets]

theorem settings_values (ls : List KeyLine) :
    (settings row randomV ls).map Prod.fst = (ls.filter row.sets).map fun l => l.2.2 := by
  induction ls generalizing randomV with
  | nil => rfl
  | cons l ls ih =>
      have hcons : l :: ls = [l] ++ ls := rfl
      rw [hcons, settings_append, settings_single, List.map_append, ih, List.filter_append]
      by_cases hsets : row.sets l <;> simp [hsets]

/-- The value of a line is one its key accepts. -/
def Parses (rows : List (Row kind)) (l : KeyLine) : Prop :=
  ∀ row ∈ rows, row.mode = l.1 → row.key = l.2.1 → (row.conversion.apply true l.2.2).isSome

instance (l : KeyLine) : Decidable (Parses rows l) := by
  unfold Parses
  infer_instance

theorem Conversion.apply_isSome {k : Kind} {c : Conversion k} {value : String}
    (h : (c.apply true value).isSome) : (c.apply randomV value).isSome := by
  cases c with
  | variance => cases randomV <;> simp_all [Conversion.apply]
  | _ => exact h

/-- Whether a value sets the field does not depend on `random_v`. -/
theorem Conversion.value_isSome {k : Kind} {c : Conversion k} {value : String}
    (h : (c.apply true value).isSome) :
    (c.value randomV value).isSome = (c.value true value).isSome := by
  cases c with
  | variance =>
      cases randomV with
      | true => rfl
      | false =>
          rw [Conversion.apply, if_pos rfl, Option.isSome_map] at h
          obtain ⟨x, hx⟩ := Option.isSome_iff_exists.mp h
          simp [Conversion.value, Conversion.apply, hx]
  | _ => rfl

/-- In a table no two rows are of one key, and no two of one field. -/
structure IsTable (rows : List (Row kind)) : Prop where
  keys : (rows.map fun row => (row.mode, row.key)).Nodup
  fields : (rows.map Row.field).Nodup

variable [DecidableEq F] in
theorem storeKey_none {mode : Mode} {key value : String} {fields : (f : F) → (kind f).Ty}
    (h : ∀ row ∈ rows, ¬(row.mode = mode ∧ row.key = key)) :
    storeKey rows randomV mode key value fields = some fields := by
  have hfind : rows.find? (fun row => row.mode = mode ∧ row.key = key) = none :=
    List.find?_eq_none.mpr fun row hrow => by
      rw [decide_eq_true_eq]
      exact h row hrow
  rw [storeKey, hfind]

theorem IsTable.find (htable : IsTable rows) (hrow : row ∈ rows) :
    rows.find? (fun r => r.mode = row.mode ∧ r.key = row.key) = some row := by
  cases hfind : rows.find? fun r => r.mode = row.mode ∧ r.key = row.key with
  | none =>
      have hno := List.find?_eq_none.mp hfind row hrow
      simp at hno
  | some r =>
      have hr := List.find?_some hfind
      rw [decide_eq_true_eq] at hr
      exact congrArg some (List.inj_on_of_nodup_map htable.keys (List.mem_of_find?_eq_some hfind)
        hrow (Prod.ext hr.1 hr.2))

/-- The fields hold what the lines settle, and the others what they held at the start. -/
structure FieldsSettled (rows : List (Row kind)) (initial : (f : F) → (kind f).Ty) (randomV : Bool)
    (ls : List KeyLine) (fields : (f : F) → (kind f).Ty) : Prop where
  held : ∀ row ∈ rows, fields row.field =
    row.settled (initial row.field) (settings row randomV ls)
  rest : ∀ f, (∀ row ∈ rows, row.field ≠ f) → fields f = initial f

variable {initial fields fields' : (f : F) → (kind f).Ty} {ls : List KeyLine} {l : KeyLine}

theorem FieldsSettled.nil : FieldsSettled rows initial randomV [] initial where
  held _ _ := rfl
  rest _ _ := rfl

theorem Row.settled_concat {x : (kind row.field).Ty}
    (hparse : (row.conversion.apply true l.2.2).isSome)
    (hmode : row.mode = l.1) (hkey : row.key = l.2.1) :
    row.settled x (settings row randomV (ls ++ [l])) =
      (row.conversion.value (randomVAfter randomV ls) l.2.2).getD
        (row.settled x (settings row randomV ls)) := by
  rw [settings_append, settings_single]
  by_cases hsets : row.sets l
  · have hsome : (row.conversion.value (randomVAfter randomV ls) l.2.2).isSome := by
      rw [Conversion.value_isSome hparse]
      exact (of_decide_eq_true hsets).2.2
    obtain ⟨v, hv⟩ := Option.isSome_iff_exists.mp hsome
    simp [hsets, Row.settled, hv]
  · have hnone : row.conversion.value (randomVAfter randomV ls) l.2.2 = none := by
      rw [← Option.not_isSome_iff_eq_none, Conversion.value_isSome hparse]
      intro hsome
      exact hsets (decide_eq_true ⟨hmode.symm, hkey.symm, hsome⟩)
    simp [hsets, hnone]

theorem Row.settled_skip {x : (kind row.field).Ty} (h : ¬(row.mode = l.1 ∧ row.key = l.2.1)) :
    row.settled x (settings row randomV (ls ++ [l])) =
      row.settled x (settings row randomV ls) := by
  have hsets : row.sets l = false := by
    rw [Row.sets, decide_eq_false_iff_not]
    intro hl
    exact h ⟨hl.1.symm, hl.2.1.symm⟩
  rw [settings_append, settings_single, hsets]
  simp

variable [DecidableEq F]

/-- **A key line settles its field.** -/
theorem FieldsSettled.storeKey (htable : IsTable rows) (hparses : Parses rows l)
    (h : FieldsSettled rows initial randomV ls fields)
    (hstore : storeKey rows (randomVAfter randomV ls) l.1 l.2.1 l.2.2 fields = some fields') :
    FieldsSettled rows initial randomV (ls ++ [l]) fields' := by
  by_cases hany : ∃ r ∈ rows, r.mode = l.1 ∧ r.key = l.2.1
  · obtain ⟨r, hr, hmode, hkey⟩ := hany
    have hfind := htable.find hr
    rw [hmode, hkey] at hfind
    rw [NetworkEmulator.storeKey, hfind] at hstore
    obtain ⟨o, ho, hset⟩ := Option.map_eq_some_iff.mp hstore
    have hvalue : r.conversion.value (randomVAfter randomV ls) l.2.2 = o := by
      rw [Conversion.value, ho]
      rfl
    have hfields : fields' = Function.update fields r.field (o.getD (fields r.field)) := by
      rw [← hset]
      cases o with
      | none => exact (Function.update_eq_self ..).symm
      | some v => rfl
    subst hfields
    refine ⟨fun row hrow => ?_, fun f hf => ?_⟩
    · by_cases heq : row = r
      · subst heq
        rw [Function.update_self, Row.settled_concat (hparses row hr hmode hkey) hmode hkey,
          hvalue, h.held row hr]
      · have hfield : row.field ≠ r.field := fun hf =>
          heq (List.inj_on_of_nodup_map htable.fields hrow hr hf)
        have hother : ¬(row.mode = l.1 ∧ row.key = l.2.1) := by
          intro hl
          have hpair : (row.mode, row.key) = (r.mode, r.key) := by
            rw [hl.1, hl.2, hmode, hkey]
          exact heq (List.inj_on_of_nodup_map htable.keys hrow hr hpair)
        rw [Function.update_of_ne hfield, Row.settled_skip hother, h.held row hrow]
    · rw [Function.update_of_ne (fun heq => hf r hr heq.symm), h.rest f hf]
  · have hno : ∀ row ∈ rows, ¬(row.mode = l.1 ∧ row.key = l.2.1) :=
      fun row hrow hl => hany ⟨row, hrow, hl⟩
    rw [storeKey_none hno] at hstore
    obtain rfl := Option.some.inj hstore
    refine ⟨fun row hrow => ?_, h.rest⟩
    rw [Row.settled_skip (hno row hrow), h.held row hrow]

theorem storeKey_isSome (hparses : Parses rows l) (randomV : Bool)
    (fields : (f : F) → (kind f).Ty) :
    (NetworkEmulator.storeKey rows randomV l.1 l.2.1 l.2.2 fields).isSome := by
  rw [NetworkEmulator.storeKey]
  cases hfind : rows.find? fun row => row.mode = l.1 ∧ row.key = l.2.1 with
  | none => rfl
  | some row =>
      have hr := List.find?_some hfind
      rw [decide_eq_true_eq] at hr
      rw [Option.isSome_map]
      exact Conversion.apply_isSome
        (hparses row (List.mem_of_find?_eq_some hfind) hr.1 hr.2)

/-- FieldsSettled fields are all there is to know of them. -/
theorem FieldsSettled.ext {ls' : List KeyLine} {randomV' : Bool}
    (h : FieldsSettled rows initial randomV ls fields)
    (h' : FieldsSettled rows initial randomV' ls' fields')
    (hrows : ∀ row ∈ rows, row.settled (initial row.field) (settings row randomV ls) =
      row.settled (initial row.field) (settings row randomV' ls')) : fields = fields' := by
  funext f
  by_cases hf : ∃ row ∈ rows, row.field = f
  · obtain ⟨row, hrow, rfl⟩ := hf
    rw [h.held row hrow, h'.held row hrow, hrows row hrow]
  · have hno : ∀ row ∈ rows, row.field ≠ f := fun row hrow heq => hf ⟨row, hrow, heq⟩
    rw [h.rest f hno, h'.rest f hno]

end Rows

namespace ConfigurationLoader

/-- The section the last of some sections is, for the line that follows. -/
private def modeAfter (sections : List ConfigSection) : Mode :=
  (sections.getLast?.map ConfigSection.mode).getD .other

private theorem entry_other {env : LoaderEnv} {c : ConfigurationLoader} {key value : String} :
    c.entry env .other key value = some c := by
  have hmode : ∀ row ∈ fieldRows, row.mode ≠ .other := by decide
  have hstore : storeKey fieldRows c.randomV .other key value c.fields = some c.fields :=
    storeKey_none fun row hrow h => hmode row hrow h.1
  simp [entry, fieldEntry, hstore]

private theorem readLines_eq {env : LoaderEnv} (lines : List String) :
    runAll (readLine env) (.other, {}) lines =
      (runAll (fun c (l : KeyLine) => c.entry env l.1 l.2.1 l.2.2) {}
        (keyLines (sectionsOf lines))).map (modeAfter (sectionsOf lines), ·) := by
  induction lines using List.reverseRecOn with
  | nil => rfl
  | append_singleton lines line ih =>
      have hsections : sectionsOf (lines ++ [line]) = addLine (sectionsOf lines) line := by
        simp [sectionsOf]
      rw [runAll_append, ih, hsections]
      generalize sectionsOf lines = secs
      cases hline : NetworkEmulator.readLine line with
      | header mode =>
          have hadd : addLine secs line = secs ++ [{ mode := mode }] := by simp [addLine, hline]
          rw [hadd, keyLines_concat]
          simp [ConfigSection.keyLines, modeAfter, Option.map_eq_bind, Option.bind_assoc, runAll,
            readLine, hline]
      | skip =>
          have hadd : addLine secs line = secs := by simp [addLine, hline]
          rw [hadd]
          simp [Option.map_eq_bind, runAll, readLine, hline]
      | entry key value =>
          rcases List.eq_nil_or_concat' secs with rfl | ⟨secs, s, rfl⟩
          · have hadd : addLine [] line = [] := by simp [addLine, hline]
            rw [hadd]
            simp [keyLines, modeAfter, runAll, readLine, hline, entry_other]
          · have hadd : addLine (secs ++ [s]) line =
                secs ++ [{ s with entries := s.entries ++ [(key, value)] }] := by
              simp [addLine, hline]
            rw [hadd, keyLines_concat, keyLines_concat]
            have hlines : ConfigSection.keyLines { s with entries := s.entries ++ [(key, value)] } =
                s.keyLines ++ [(s.mode, key, value)] := by simp [ConfigSection.keyLines]
            rw [hlines, ← List.append_assoc, @runAll_append _ _ _ _ _ [(s.mode, key, value)]]
            simp [modeAfter, Option.map_eq_bind, Option.bind_assoc, runAll, readLine, hline]

/-- The key lines of a text, in their sections, are all that the loader reads of it. -/
theorem load_eq (env : LoaderEnv) (lines : List String) :
    load env lines = runAll (fun c (l : KeyLine) => c.entry env l.1 l.2.1 l.2.2) {}
      (keyLines (sectionsOf lines)) := by
  rw [load, readLines_eq, Option.map_map]
  exact Option.map_id'

/-! ### What the lines leave in the loader -/

theorem ueRows_isTable : IsTable ueRows where
  keys := by decide +kernel
  fields := by decide +kernel

theorem fieldRows_isTable : IsTable fieldRows where
  keys := by decide +kernel
  fields := by decide +kernel

theorem mode_of_ueRows : ∀ row ∈ ueRows, row.mode = .ue := by decide

theorem mode_of_fieldRows : ∀ row ∈ fieldRows, row.mode ≠ .ue := by decide

/-- The row of `scenario_type`. -/
abbrev scenarioTypeRow : Row LoaderField.kind := ⟨.scenario, "scenario_type", .scenarioType, .int⟩

/-- The row of `frequency`. -/
abbrev frequencyRow : Row LoaderField.kind := ⟨.eNBConfig, "frequency", .frequency, .real⟩

/-- The scenario type and the frequency that some lines settle. -/
def settledMap (ls : List KeyLine) : ℤ × ℚ :=
  (scenarioTypeRow.settled (LoaderField.initial .scenarioType) (settings scenarioTypeRow false ls),
    frequencyRow.settled (LoaderField.initial .frequency) (settings frequencyRow false ls))

/-- The scenario type and the frequency that are settled at the last line of `[eNBConfig]`. -/
def mapInputs (ls : List KeyLine) : Option (ℤ × ℚ) :=
  let ls := ls.rdropWhile fun l => l.1 ≠ .eNBConfig
  if ls = [] then none else some (settledMap ls)

/-- What the key lines so far leave in the loader, its UEs apart. -/
structure Loaded (env : LoaderEnv) (ls : List KeyLine) (c : ConfigurationLoader) : Prop where
  randomV : c.randomV = randomVAfter false ls
  fields : FieldsSettled fieldRows LoaderField.initial false ls c.fields
  mapFile : c.mapFile =
    (mapInputs ls).elim "" fun p => getClosestMapFile env.basePath p.1 p.2

variable {env : LoaderEnv} {c c' : ConfigurationLoader} {ls : List KeyLine} {l : KeyLine}

theorem Loaded.start : Loaded env [] {} where
  randomV := rfl
  fields := .nil
  mapFile := rfl

theorem randomVAfter_concat (randomV : Bool) :
    randomVAfter randomV (ls ++ [l]) = nextRandomV (randomVAfter randomV ls) l := by
  simp [randomVAfter]

theorem nextRandomV_of_mode {randomV : Bool} (hmode : l.1 ≠ .ue) :
    nextRandomV randomV l = randomV := if_neg fun h => hmode h.1

theorem mapInputs_skip (hmode : l.1 ≠ .eNBConfig) : mapInputs (ls ++ [l]) = mapInputs ls := by
  have hdrop : (ls ++ [l]).rdropWhile (fun l => l.1 ≠ .eNBConfig) =
      ls.rdropWhile fun l => l.1 ≠ .eNBConfig :=
    List.rdropWhile_concat_pos _ _ _ (by simp [hmode])
  rw [mapInputs, hdrop, mapInputs]

private theorem ueEntry_frame {key value : String} (h : c.ueEntry env key value = some c') :
    c'.fields = c.fields ∧ c'.mapFile = c.mapFile ∧
      c'.randomV = nextRandomV c.randomV (.ue, key, value) := by
  rw [ueEntry] at h
  by_cases hrandom : key = "random_v"
  · rw [if_pos hrandom] at h
    obtain rfl := Option.some.inj h
    exact ⟨rfl, rfl, (if_pos ⟨rfl, hrandom⟩).symm⟩
  have hnext : nextRandomV c.randomV (.ue, key, value) = c.randomV :=
    if_neg fun hl => hrandom hl.2
  rw [if_neg hrandom] at h
  rw [hnext]
  by_cases hid : key = "ue_id"
  · rw [if_pos hid] at h
    obtain rfl := Option.some.inj h
    exact ⟨rfl, rfl, rfl⟩
  rw [if_neg hid] at h
  by_cases hrows : ueRows.all fun row => row.key ≠ key
  · rw [if_pos hrows] at h
    obtain rfl := Option.some.inj h
    exact ⟨rfl, rfl, rfl⟩
  rw [if_neg hrows] at h
  cases hlast : c.ueCList.getLast? with
  | none => rw [hlast] at h; cases h
  | some ue =>
      rw [hlast] at h
      obtain ⟨fields, -, rfl⟩ := Option.map_eq_some_iff.mp h
      exact ⟨rfl, rfl, rfl⟩

/-- **A key line keeps the loader in step with the text.** -/
theorem Loaded.entry (hparses : Parses fieldRows l) (h : Loaded env ls c)
    (hentry : c.entry env l.1 l.2.1 l.2.2 = some c') : Loaded env (ls ++ [l]) c' := by
  rw [ConfigurationLoader.entry] at hentry
  by_cases hmode : l.1 = .ue
  · rw [if_pos hmode] at hentry
    obtain ⟨hfields, hmap, hrandom⟩ := ueEntry_frame hentry
    have hstore : storeKey fieldRows (randomVAfter false ls) l.1 l.2.1 l.2.2 c.fields =
        some c.fields :=
      storeKey_none fun row hrow hl => mode_of_fieldRows row hrow (hl.1.trans hmode)
    refine ⟨?_, ?_, ?_⟩
    · rw [hrandom, h.randomV, randomVAfter_concat, ← hmode]
    · rw [hfields]
      exact h.fields.storeKey fieldRows_isTable hparses hstore
    · have hskip : l.1 ≠ .eNBConfig := by
        rw [hmode]
        decide
      rw [hmap, h.mapFile, mapInputs_skip hskip]
  · rw [if_neg hmode] at hentry
    obtain ⟨fields, hstore, rfl⟩ := Option.map_eq_some_iff.mp hentry
    rw [h.randomV] at hstore
    have hsettled := h.fields.storeKey fieldRows_isTable hparses hstore
    have hrandom : randomVAfter false (ls ++ [l]) = c.randomV := by
      rw [randomVAfter_concat, nextRandomV_of_mode hmode, h.randomV]
    by_cases hmap : l.1 = .eNBConfig
    · rw [if_pos hmap]
      refine ⟨hrandom.symm, hsettled, ?_⟩
      have hdrop : (ls ++ [l]).rdropWhile (fun l => l.1 ≠ .eNBConfig) = ls ++ [l] :=
        List.rdropWhile_concat_neg _ _ _ (by simp [hmap])
      have hmaps : (fields .scenarioType, fields .frequency) = settledMap (ls ++ [l]) :=
        Prod.ext (hsettled.held scenarioTypeRow (by simp [fieldRows]))
          (hsettled.held frequencyRow (by simp [fieldRows]))
      have hne : ls ++ [l] ≠ [] := by simp
      rw [mapInputs, hdrop, if_neg hne, Option.elim_some, ← hmaps]
    · rw [if_neg hmap]
      exact ⟨hrandom.symm, hsettled, by rw [mapInputs_skip hmap]; exact h.mapFile⟩

theorem Loaded.run {ls' : List KeyLine} (hparses : ∀ l ∈ ls', Parses fieldRows l)
    (h : Loaded env ls c)
    (hrun : runAll (fun c (l : KeyLine) => c.entry env l.1 l.2.1 l.2.2) c ls' = some c') :
    Loaded env (ls ++ ls') c' := by
  induction ls' generalizing ls c with
  | nil =>
      obtain rfl := Option.some.inj hrun
      rwa [List.append_nil]
  | cons l ls' ih =>
      obtain ⟨c₁, hentry, hrun⟩ := runAll_cons.mp hrun
      have hloaded := h.entry (hparses l (List.mem_cons_self ..)) hentry
      rw [List.append_cons]
      exact ih (fun l hl => hparses l (List.mem_cons_of_mem _ hl)) hloaded hrun

/-! ### The UEs of a text -/

/-- The `[UE]` sections, each with the `random_v` that is set before it. -/
def ueSections (randomV : Bool) : List ConfigSection → List (Bool × ConfigSection)
  | [] => []
  | s :: sections => (if s.mode = .ue then [(randomV, s)] else []) ++
      ueSections (randomVAfter randomV s.keyLines) sections

theorem randomVAfter_append (randomV : Bool) (ls ls' : List KeyLine) :
    randomVAfter randomV (ls ++ ls') = randomVAfter (randomVAfter randomV ls) ls' :=
  List.foldl_append

theorem ueSections_concat (randomV : Bool) (sections : List ConfigSection) (s : ConfigSection) :
    ueSections randomV (sections ++ [s]) = ueSections randomV sections ++
      if s.mode = .ue then [(randomVAfter randomV (keyLines sections), s)] else [] := by
  induction sections generalizing randomV with
  | nil => simp [ueSections, keyLines, randomVAfter]
  | cons t sections ih =>
      have hlines : keyLines (t :: sections) = t.keyLines ++ keyLines sections := by
        simp [keyLines]
      rw [List.cons_append, ueSections, ih, ueSections, hlines, randomVAfter_append,
        List.append_assoc]

/-- The UE a section makes. -/
structure MadeOf (env : LoaderEnv) (s : Bool × ConfigSection) (ue : UeFullConfig) : Prop where
  id : s.2.entries.head? = some ("ue_id", ue.id)
  mobilityRandomV : ue.mobilityRandomV = s.1
  trafficRandomV : ue.trafficRandomV = s.1
  fields : FieldsSettled ueRows (UeField.initial env.unset) s.1 s.2.keyLines ue.fields

/-- A well-formed text: a UE starts with its `ue_id`, no key comes twice in a section, and the
values parse. -/
structure WellFormed (sections : List ConfigSection) : Prop where
  starts : ∀ s ∈ sections, s.mode = .ue → s.entries.head?.map Prod.fst = some "ue_id"
  once : ∀ s ∈ sections, (s.entries.map Prod.fst).Nodup
  parses : ∀ l ∈ keyLines sections, Parses ueRows l ∧ Parses fieldRows l

/-- The loader inside a `[UE]` section: the UEs before it, the `random_v` before it, and the UE
it has started. -/
structure InUe (env : LoaderEnv) (before : List UeFullConfig) (randomV : Bool) (id : String)
    (ls : List KeyLine) (c : ConfigurationLoader) (ue : UeFullConfig) : Prop where
  list : c.ueCList = before ++ [ue]
  reads : c.randomV = randomVAfter randomV ls
  named : ue.id = id
  mobilityRandomV : ue.mobilityRandomV = randomV
  trafficRandomV : ue.trafficRandomV = randomV
  fields : FieldsSettled ueRows (UeField.initial env.unset) randomV ls ue.fields

variable {before : List UeFullConfig} {randomV : Bool} {id key value : String}
variable {ue : UeFullConfig}

private theorem storeKey_ue_none (hkey : ∀ row ∈ ueRows, row.key ≠ key) :
    storeKey ueRows randomV .ue key value ue.fields = some ue.fields :=
  storeKey_none fun row hrow hl => hkey row hrow hl.2

private theorem InUe.entry (hid : key ≠ "ue_id") (hparses : Parses ueRows (.ue, key, value))
    (h : InUe env before randomV id ls c ue) :
    ∃ c' ue', c.ueEntry env key value = some c' ∧
      InUe env before randomV id (ls ++ [(.ue, key, value)]) c' ue' := by
  rw [ueEntry, if_neg hid]
  by_cases hrandom : key = "random_v"
  · rw [if_pos hrandom]
    have hnone : ∀ row ∈ ueRows, row.key ≠ key := by
      rw [hrandom]
      decide
    refine ⟨_, ue, rfl, h.list, ?_, h.named, h.mobilityRandomV, h.trafficRandomV,
      h.fields.storeKey ueRows_isTable hparses (storeKey_ue_none hnone)⟩
    rw [randomVAfter_concat, ← h.reads]
    exact (if_pos ⟨rfl, hrandom⟩).symm
  have hnext : randomVAfter randomV (ls ++ [(.ue, key, value)]) = c.randomV := by
    rw [randomVAfter_concat, ← h.reads]
    exact if_neg fun hl => hrandom hl.2
  rw [if_neg hrandom]
  by_cases hrows : ueRows.all fun row => row.key ≠ key
  · rw [if_pos hrows]
    have hnone : ∀ row ∈ ueRows, row.key ≠ key := fun row hrow =>
      of_decide_eq_true (List.all_eq_true.mp hrows row hrow)
    exact ⟨c, ue, rfl, h.list, hnext.symm, h.named, h.mobilityRandomV, h.trafficRandomV,
      h.fields.storeKey ueRows_isTable hparses (storeKey_ue_none hnone)⟩
  · rw [if_neg hrows, h.list, List.getLast?_concat, List.dropLast_concat]
    obtain ⟨fields, hfields⟩ := Option.isSome_iff_exists.mp
      (storeKey_isSome hparses c.randomV ue.fields)
    have hsettled := h.fields.storeKey ueRows_isTable hparses (h.reads ▸ hfields)
    exact ⟨{ c with ueCList := before ++ [{ ue with fields := fields }] },
      { ue with fields := fields }, by simp only [hfields, Option.map_some], rfl,
      hnext.symm, h.named, h.mobilityRandomV, h.trafficRandomV, hsettled⟩

/-- **A `[UE]` section makes one UE.** -/
private theorem ue_run (env : LoaderEnv) (c : ConfigurationLoader) {s : ConfigSection}
    (hmode : s.mode = .ue)
    (hstart : s.entries.head? = some ("ue_id", id)) (honce : (s.entries.map Prod.fst).Nodup)
    (hparses : ∀ l ∈ s.keyLines, Parses ueRows l) :
    ∃ c' ue, runAll (fun c (l : KeyLine) => c.entry env l.1 l.2.1 l.2.2) c s.keyLines = some c' ∧
      c'.ueCList = c.ueCList ++ [ue] ∧ MadeOf env (c.randomV, s) ue := by
  obtain ⟨rest, hrest⟩ := List.head?_eq_some_iff.mp hstart
  have hlines : s.keyLines = (.ue, "ue_id", id) :: rest.map (Mode.ue, ·) := by
    rw [ConfigSection.keyLines, hrest, hmode, List.map_cons]
  rw [hrest, List.map_cons, List.nodup_cons] at honce
  rw [hlines] at hparses
  suffices hrun : ∃ c' ue, runAll (fun c (l : KeyLine) => c.entry env l.1 l.2.1 l.2.2) c
      ((.ue, "ue_id", id) :: rest.map (Mode.ue, ·)) = some c' ∧
      InUe env c.ueCList c.randomV id ((.ue, "ue_id", id) :: rest.map (Mode.ue, ·)) c' ue by
    obtain ⟨c', ue, hrun, h⟩ := hrun
    rw [← hlines] at hrun h
    exact ⟨c', ue, hrun, h.list, by rw [h.named]; exact hstart, h.mobilityRandomV,
      h.trafficRandomV, h.fields⟩
  clear hlines hrest hstart
  replace honce := honce.1
  induction rest using List.reverseRecOn with
  | nil =>
      have hnone : ∀ row ∈ ueRows, row.key ≠ "ue_id" := by decide
      have hnil : FieldsSettled ueRows (UeField.initial env.unset) c.randomV []
          (UeField.initial env.unset) := .nil
      refine ⟨_, _, rfl, rfl, rfl, rfl, rfl, rfl, ?_⟩
      exact hnil.storeKey ueRows_isTable (hparses _ (by simp))
        (storeKey_none fun row hrow hl => hnone row hrow hl.2)
  | append_singleton rest e ih =>
      obtain ⟨key, value⟩ := e
      rw [List.map_append, List.mem_append, not_or] at honce
      rw [List.map_append, ← List.cons_append] at hparses ⊢
      obtain ⟨c', ue, hrun, h⟩ := ih (fun l hl => hparses l (List.mem_append_left _ hl)) honce.1
      have hkey : key ≠ "ue_id" := fun heq => honce.2 (by simp [heq])
      obtain ⟨c'', ue', hentry, h'⟩ := h.entry hkey (hparses (.ue, key, value) (by simp))
      exact ⟨c'', ue', runAll_concat.mpr ⟨c', hrun, hentry⟩, h'⟩

/-- The other sections make none. -/
private theorem other_run (env : LoaderEnv) (c : ConfigurationLoader) {s : ConfigSection}
    (hmode : s.mode ≠ .ue)
    (hparses : ∀ l ∈ s.keyLines, Parses fieldRows l) :
    ∃ c', runAll (fun c (l : KeyLine) => c.entry env l.1 l.2.1 l.2.2) c s.keyLines = some c' ∧
      c'.ueCList = c.ueCList := by
  have hmodes : ∀ l ∈ s.keyLines, l.1 ≠ .ue := fun l hl => by
    rw [mode_of_mem hl]
    exact hmode
  generalize s.keyLines = ls at hparses hmodes
  induction ls generalizing c with
  | nil => exact ⟨c, rfl, rfl⟩
  | cons l ls ih =>
      obtain ⟨fields, hfields⟩ := Option.isSome_iff_exists.mp
        (storeKey_isSome (hparses l (List.mem_cons_self ..)) c.randomV c.fields)
      have hlist : (c.entry env l.1 l.2.1 l.2.2).map ueCList = some c.ueCList := by
        rw [ConfigurationLoader.entry, if_neg (hmodes l (List.mem_cons_self ..)), fieldEntry,
          hfields, Option.map_some, Option.map_some]
        by_cases hmap : l.1 = .eNBConfig
        · rw [if_pos hmap]
        · rw [if_neg hmap]
      obtain ⟨c₁, hentry, hlist⟩ := Option.map_eq_some_iff.mp hlist
      obtain ⟨c', hrun, hlist'⟩ := ih c₁ (fun l hl => hparses l (List.mem_cons_of_mem _ hl))
        (fun l hl => hmodes l (List.mem_cons_of_mem _ hl))
      exact ⟨c', runAll_cons.mpr ⟨c₁, hentry, hrun⟩, hlist'.trans hlist⟩

private theorem WellFormed.of_concat {sections : List ConfigSection} {s : ConfigSection}
    (h : WellFormed (sections ++ [s])) : WellFormed sections where
  starts t ht := h.starts t (List.mem_append_left _ ht)
  once t ht := h.once t (List.mem_append_left _ ht)
  parses l hl := h.parses l (by rw [keyLines_concat]; exact List.mem_append_left _ hl)

private theorem run_loaded {sections : List ConfigSection} (hwell : WellFormed sections) :
    ∃ c, runAll (fun c (l : KeyLine) => c.entry env l.1 l.2.1 l.2.2) {} (keyLines sections) =
      some c ∧ Loaded env (keyLines sections) c ∧
      List.Forall₂ (MadeOf env) (ueSections false sections) c.ueCList := by
  induction sections using List.reverseRecOn with
  | nil => exact ⟨{}, rfl, .start, .nil⟩
  | append_singleton sections s ih =>
      obtain ⟨c, hrun, hloaded, hues⟩ := ih hwell.of_concat
      have hs : s ∈ sections ++ [s] := by simp
      have hparses : ∀ l ∈ s.keyLines, Parses ueRows l ∧ Parses fieldRows l := fun l hl =>
        hwell.parses l (mem_keyLines hs hl)
      rw [keyLines_concat, ueSections_concat, ← hloaded.randomV]
      by_cases hmode : s.mode = .ue
      · obtain ⟨⟨_, id⟩, hid, rfl⟩ := Option.map_eq_some_iff.mp (hwell.starts s hs hmode)
        obtain ⟨c', ue, hrun', hlist, hmade⟩ :=
          ue_run env c hmode hid (hwell.once s hs) fun l hl => (hparses l hl).1
        refine ⟨c', ?_, hloaded.run (fun l hl => (hparses l hl).2) hrun', ?_⟩
        · rw [runAll_append, hrun]
          exact hrun'
        · rw [if_pos hmode, hlist]
          exact List.rel_append hues (.cons hmade .nil)
      · obtain ⟨c', hrun', hlist⟩ :=
          other_run env c hmode fun l hl => (hparses l hl).2
        refine ⟨c', ?_, hloaded.run (fun l hl => (hparses l hl).2) hrun', ?_⟩
        · rw [runAll_append, hrun]
          exact hrun'
        · rw [if_neg hmode, List.append_nil, hlist]
          exact hues

/-- **What a well-formed text loads.**  The file is read to its end, and the loader holds what
the key lines settle and a UE for each `[UE]` section. -/
theorem load_wellFormed (env : LoaderEnv) {lines : List String}
    (hwell : WellFormed (sectionsOf lines)) :
    ∃ c, load env lines = some c ∧ Loaded env (keyLines (sectionsOf lines)) c ∧
      List.Forall₂ (MadeOf env) (ueSections false (sectionsOf lines)) c.ueCList := by
  rw [load_eq]
  exact run_loaded hwell

end ConfigurationLoader

end NetworkEmulator
