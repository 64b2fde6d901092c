/-
What the dashboard makes of a line of metrics.

Names without blanks, commas, equals signs, bars and backslashes survive the trip.  The two
blanks the worker writes are then the only ones of a line, its commas stand between items
and nowhere else, and the first equals sign of an item stands behind its name.  So the
parser takes the line apart where the worker put it together: `line_decodes`.

The tags of a point can be read off its key in the same way, so points with one key are of
one series: `key_eq_iff`.
-/
import NetworkEmulator.Library.Delimited
import NetworkEmulator.Library.GroupFold
import NetworkEmulator.Model.InfluxLine
import NetworkEmulator.Proofs.Reporting

namespace NetworkEmulator

open Delimited Rounding

/-! ### Numbers -/

/-- A value rounded to six decimals. -/
def rounded (value : ℚ) : ℚ := roundHalfEven (value * 10 ^ 6) / 10 ^ 6

/-- It is off by half a millionth at most. -/
theorem rounded_near (value : ℚ) : |rounded value - value| ≤ 1 / 2000000 := by
  have hnear := roundHalfEven_near (value * 10 ^ 6)
  have hscaled : rounded value - value =
      (roundHalfEven (value * 10 ^ 6) - value * 10 ^ 6) / 10 ^ 6 := by
    rw [rounded]
    field_simp
  rw [hscaled, abs_div, abs_of_pos (by positivity : (0 : ℚ) < 10 ^ 6), div_le_iff₀ (by positivity)]
  linarith

private theorem digitsValue_eq (ds : List Char) : digitsValue ds = Nat.ofDigitChars 10 ds 0 := rfl

private theorem takeWhile_digits {ds : List Char} (rest : List Char)
    (h : ∀ c ∈ ds, c.isDigit = true)
    (hrest : ∀ c ∈ rest.head?, c.isDigit = false) :
    (ds ++ rest).takeWhile Char.isDigit = ds ∧ (ds ++ rest).dropWhile Char.isDigit = rest := by
  rw [List.takeWhile_append_of_pos h, List.dropWhile_append_of_pos h]
  rcases rest with _ | ⟨c, rest⟩
  · simp
  · have hc : ¬ c.isDigit = true := by simp [hrest c rfl]
    rw [List.takeWhile_cons_of_neg hc, List.dropWhile_cons_of_neg hc, List.append_nil]
    exact ⟨rfl, rfl⟩

/-- A numeral that starts with a digit has no sign. -/
private theorem numeralSign_digit {s : List Char} (h : ∀ c ∈ s.head?, c.isDigit = true) :
    numeralSign s = (1, s) := by
  unfold numeralSign
  split
  · exact absurd (h '-' rfl) (by decide)
  · exact absurd (h '+' rfl) (by decide)
  · rfl

private theorem scanMantissa_six (n : ℕ) :
    scanMantissa (sixDecimals n) = ((fixedPoint 6 n).1, (fixedPoint 6 n).2, []) := by
  have hdigits := fun c hc => fixedPoint_isDigit 6 n (c := c) (List.mem_append_left _ hc)
  have hdecimals := fun c hc => fixedPoint_isDigit 6 n (c := c) (List.mem_append_right _ hc)
  have hwhole := takeWhile_digits ('.' :: (fixedPoint 6 n).2) hdigits fun c hc => by
    obtain rfl : '.' = c := Option.some.inj hc
    decide
  have hfraction := takeWhile_digits [] hdecimals fun c hc => by cases hc
  rw [List.append_nil] at hfraction
  have hsix : sixDecimals n = (fixedPoint 6 n).1 ++ '.' :: (fixedPoint 6 n).2 := rfl
  rw [hsix, scanMantissa, hwhole.2, hwhole.1]
  simp only [hfraction.1, hfraction.2]

/-- A number with six decimals is read as it was printed. -/
private theorem scanNumeral_six {s : List Char} {sign : ℤ} {n : ℕ}
    (hsign : numeralSign s = (sign, sixDecimals n)) :
    scanNumeral s = (some ((sign : ℚ) * n / 10 ^ 6), []) := by
  have hne : (fixedPoint 6 n).1 ++ (fixedPoint 6 n).2 ≠ [] := fun hnil =>
    fixedPoint_ne_nil 6 n (List.append_eq_nil_iff.mp hnil).1
  rw [scanNumeral, hsign]
  simp only [scanMantissa_six, if_neg hne]
  rw [scanExponent, digitsValue_eq, fixedPoint_value 6 n (by decide),
    fixedPoint_length 6 n (by decide)]
  simp

/-! ### Characters -/

private theorem isDigit_bounds {c : Char} (h : c.isDigit = true) :
    48 ≤ c.toNat ∧ c.toNat ≤ 57 := by
  simpa [Char.isDigit, UInt32.le_iff_toNat_le] using h

private theorem isDigit_not_space {c : Char} (h : c.isDigit = true) : pyIsSpace c = false := by
  have hbounds := isDigit_bounds h
  simp only [pyIsSpace, Bool.or_eq_false_iff, Bool.and_eq_false_iff, decide_eq_false_iff_not]
  omega

/-- A text that neither starts nor ends with white space is left as it is. -/
private theorem strip_eq {s : List Char} (hfirst : ∀ c ∈ s.head?, pyIsSpace c = false)
    (hlast : ∀ c ∈ s.getLast?, pyIsSpace c = false) : strip s = s := by
  have hdrop : s.dropWhile pyIsSpace = s := by
    rcases s with _ | ⟨c, s⟩
    · rfl
    · rw [List.dropWhile_cons_of_neg (by simp [hfirst c rfl])]
  rw [strip, hdrop, List.rdropWhile_eq_self_iff]
  intro hne
  rw [hlast _ (List.getLast?_eq_some_getLast hne)]
  exact Bool.false_ne_true

private theorem strip_eq_self {s : List Char} (h : ∀ c ∈ s, pyIsSpace c = false) : strip s = s :=
  strip_eq (fun c hc => h c (List.mem_of_mem_head? hc)) fun c hc => h c (List.mem_of_getLast? hc)

/-- What a printed number consists of. -/
private theorem mem_format {value : ℚ} {c : Char} (h : c ∈ (formatNumericField value).toList) :
    c = '-' ∨ c = '.' ∨ c.isDigit = true := by
  rw [formatNumericField, String.toList_ofList] at h
  rcases List.mem_append.mp h with h | h
  · by_cases hneg : value < 0
    · rw [if_pos hneg] at h
      exact Or.inl (List.mem_singleton.mp h)
    · rw [if_neg hneg] at h
      cases h
  · have hdigit := fun hc =>
      fixedPoint_isDigit 6 (roundHalfEven (|value| * 10 ^ 6)).toNat (c := c) hc
    rcases List.mem_append.mp h with h | h
    · exact Or.inr (Or.inr (hdigit (List.mem_append_left _ h)))
    · rcases List.mem_cons.mp h with h | h
      · exact Or.inr (Or.inl h)
      · exact Or.inr (Or.inr (hdigit (List.mem_append_right _ h)))

private theorem format_not_space {value : ℚ} {c : Char}
    (h : c ∈ (formatNumericField value).toList) : pyIsSpace c = false := by
  rcases mem_format h with rfl | rfl | h
  · decide
  · decide
  · exact isDigit_not_space h

private theorem not_mem_format {value : ℚ} {c : Char} (hc : c.isDigit = false) (hminus : c ≠ '-')
    (hpoint : c ≠ '.') : c ∉ (formatNumericField value).toList := by
  intro h
  rcases mem_format h with h | h | h
  · exact hminus h
  · exact hpoint h
  · rw [hc] at h
    cases h

/-- **A number is read as it was rounded.** -/
theorem pyFloat_format (value : ℚ) :
    pyFloat (formatNumericField value).toList = some (rounded value) := by
  have hnonneg : 0 ≤ roundHalfEven (|value| * 10 ^ 6) := le_roundHalfEven (by simp)
  have hcast : ((roundHalfEven (|value| * 10 ^ 6)).toNat : ℚ) =
      roundHalfEven (|value| * 10 ^ 6) := by
    exact_mod_cast Int.toNat_of_nonneg hnonneg
  have hdigit : ∀ c ∈ (sixDecimals (roundHalfEven (|value| * 10 ^ 6)).toNat).head?,
      c.isDigit = true := by
    intro c hc
    have hne := fixedPoint_ne_nil 6 (roundHalfEven (|value| * 10 ^ 6)).toNat
    have hsix : (sixDecimals (roundHalfEven (|value| * 10 ^ 6)).toNat).head? =
        (fixedPoint 6 (roundHalfEven (|value| * 10 ^ 6)).toNat).1.head? :=
      List.head?_append_of_ne_nil _ hne
    rw [hsix] at hc
    exact fixedPoint_isDigit 6 (roundHalfEven (|value| * 10 ^ 6)).toNat
      (List.mem_append_left _ (List.mem_of_mem_head? hc))
  rw [pyFloat, strip_eq_self fun c hc => format_not_space hc, formatNumericField,
    String.toList_ofList]
  by_cases hneg : value < 0
  · have hsign : numeralSign (['-'] ++ sixDecimals (roundHalfEven (|value| * 10 ^ 6)).toNat) =
      (-1, sixDecimals (roundHalfEven (|value| * 10 ^ 6)).toNat) := rfl
    rw [if_pos hneg, scanNumeral_six hsign, hcast, abs_of_neg hneg, neg_mul, roundHalfEven_neg,
      rounded]
    simp
  · rw [if_neg hneg, List.nil_append, scanNumeral_six (numeralSign_digit hdigit), hcast,
      abs_of_nonneg (not_lt.mp hneg), rounded]
    simp

/-- A time is read as it was printed. -/
private theorem pyInt_digits (n : ℕ) : pyInt (Nat.toDigits 10 n) = some (n : ℤ) := by
  have hdigits := fun c hc => isDigit_of_mem_toDigits n (c := c) hc
  have hne : Nat.toDigits 10 n ≠ [] := List.ne_nil_of_length_pos Nat.length_toDigits_pos
  have hall : (Nat.toDigits 10 n).all Char.isDigit = true := List.all_eq_true.mpr hdigits
  rw [pyInt, strip_eq_self fun c hc => isDigit_not_space (hdigits c hc),
    numeralSign_digit fun c hc => hdigits c (List.mem_of_mem_head? hc)]
  simp only [if_pos (And.intro hne hall)]
  rw [digitsValue_eq, Nat.ofDigitChars_ten_toDigits, one_mul]

/-! ### Items -/

/-- A name that nothing in a line is confused with. -/
def PlainText (s : String) : Prop :=
  s ≠ "" ∧ ∀ c ∈ s.toList, pyIsSpace c = false ∧ c ∉ [',', '=', '|', '\\']

instance (s : String) : Decidable (PlainText s) :=
  decidable_of_iff (s ≠ "" ∧ s.toList.all (fun c =>
      decide (pyIsSpace c = false ∧ c ∉ [',', '=', '|', '\\'])) = true)
    (and_congr_right fun _ => by simp only [List.all_eq_true, decide_eq_true_eq])

private theorem PlainText.not_mem {s : String} (h : PlainText s) {c : Char}
    (hc : c ∈ [',', '=', '|', '\\']) : c ∉ s.toList := fun hmem => (h.2 c hmem).2 hc

private theorem PlainText.blank {s : String} (h : PlainText s) : ' ' ∉ s.toList := by
  intro hmem
  exact absurd (h.2 ' ' hmem).1 (by decide)

private theorem PlainText.ne_nil {s : String} (h : PlainText s) : s.toList ≠ [] := by
  intro hnil
  exact h.1 (String.toList_inj.mp hnil)

/-- A name and a value, as items of a line are written. -/
private def item (name : String) (value : List Char) : List Char := name.toList ++ '=' :: value

private theorem splitItem_item {name : String} (h : PlainText name) (value : List Char) :
    '=' ∈ item name value ∧ splitItem (item name value) = (name.toList, value) := by
  have hname := h.not_mem (c := '=') (by decide)
  refine ⟨List.mem_append_right _ (List.mem_cons_self ..), ?_⟩
  rw [splitItem, item, takeWhile_append_cons value hname, dropWhile_append_cons value hname]
  rfl

private theorem replaceEscaped_eq (c : Char) (s : List Char) (h : '\\' ∉ s) :
    replaceEscaped c s = s := by
  fun_induction replaceEscaped c s with
  | case1 x y rest hpair ih => exact absurd (hpair.1 ▸ List.mem_cons_self ..) h
  | case2 x y rest hpair ih => rw [ih fun hmem => h (List.mem_cons_of_mem _ hmem)]
  | case3 s hs => rfl

private theorem addTag_item (tags : Std.ExtTreeMap String String) {t : String × String}
    (hname : PlainText t.1) (hvalue : PlainText t.2) :
    addTag tags (item t.1 t.2.toList) = tags.insert t.1 t.2 := by
  obtain ⟨hmem, hsplit⟩ := splitItem_item hname t.2.toList
  have hescape := hvalue.not_mem (c := '\\') (by decide)
  rw [addTag, if_neg (not_not_intro hmem), hsplit]
  simp only [replaceEscaped_eq _ _ hescape, String.ofList_toList]

private theorem addField_item (fields : Std.ExtTreeMap String ℚ) {f : String × ℚ}
    (hname : PlainText f.1) : addField fields (item f.1 (formatNumericField f.2).toList) =
      fields.insert f.1 (rounded f.2) := by
  obtain ⟨hmem, hsplit⟩ := splitItem_item hname (formatNumericField f.2).toList
  have hlast : (formatNumericField f.2).toList.getLast? ≠ some 'i' := fun hi =>
    not_mem_format (by decide) (by decide) (by decide) (List.mem_of_getLast? hi)
  rw [addField, if_neg (not_not_intro hmem), hsplit]
  simp only [if_neg hlast, pyFloat_format, String.ofList_toList]

private theorem foldl_addTag {l : List (String × String)}
    (h : ∀ t ∈ l, PlainText t.1 ∧ PlainText t.2) (tags : Std.ExtTreeMap String String) :
    (l.map fun t => item t.1 t.2.toList).foldl addTag tags =
      l.foldl (fun acc t => acc.insert t.1 t.2) tags := by
  rw [List.foldl_map]
  exact List.foldl_ext _ _ _ fun acc t ht => addTag_item acc (h t ht).1 (h t ht).2

private theorem foldl_addField {l : List (String × ℚ)} (h : ∀ f ∈ l, PlainText f.1)
    (fields : Std.ExtTreeMap String ℚ) :
    (l.map fun f => item f.1 (formatNumericField f.2).toList).foldl addField fields =
      (l.map fun f => (f.1, rounded f.2)).foldl (fun acc f => acc.insert f.1 f.2) fields := by
  rw [List.foldl_map, List.foldl_map]
  exact List.foldl_ext _ _ _ fun acc f hf => addField_item acc (h f hf)

/-! ### Headers -/

/-- A point whose names nothing in a line is confused with. -/
structure MetricPoint.Plain (p : MetricPoint) : Prop where
  measurement : PlainText p.measurement
  tags : ∀ t ∈ p.tags.toList, PlainText t.1 ∧ PlainText t.2

private theorem comma_not_mem_item {name : String} {value : List Char} (hname : PlainText name)
    (hvalue : ',' ∉ value) : ',' ∉ item name value := by
  intro hmem
  rcases List.mem_append.mp hmem with hmem | hmem
  · exact hname.not_mem (by decide) hmem
  · rcases List.mem_cons.mp hmem with hmem | hmem
    · exact absurd hmem (by decide)
    · exact hvalue hmem

private theorem blank_not_mem_item {name : String} {value : List Char} (hname : PlainText name)
    (hvalue : ' ' ∉ value) : ' ' ∉ item name value := by
  intro hmem
  rcases List.mem_append.mp hmem with hmem | hmem
  · exact hname.blank hmem
  · rcases List.mem_cons.mp hmem with hmem | hmem
    · exact absurd hmem (by decide)
    · exact hvalue hmem

private theorem tagText_toList (p : MetricPoint) :
    p.tagText.toList = [','].intercalate (p.tags.toList.map fun t => item t.1 t.2.toList) := by
  rw [MetricPoint.tagText, String.toList_intercalate, List.map_map]
  congr 1
  refine List.map_congr_left fun t _ => ?_
  rw [Function.comp_apply, String.toList_append, String.toList_append, List.append_assoc]
  rfl

namespace MetricPoint.Plain

variable {p q : MetricPoint}

/-- **The tags of a point can be read off their text.** -/
theorem tags_eq (h : p.Plain) : (p.tagText.toList.splitOn ',').foldl addTag ∅ = p.tags := by
  rw [tagText_toList]
  by_cases hnil : p.tags.toList = []
  · have hempty : p.tags = ∅ := Std.ExtTreeMap.toList_eq_nil_iff.mp hnil
    rw [hnil, hempty]
    rfl
  · rw [List.splitOn_intercalate ',' ?_ (by simpa using hnil), foldl_addTag h.tags,
      GroupFold.foldl_insert_toList]
    intro part hpart
    obtain ⟨t, ht, rfl⟩ := List.mem_map.mp hpart
    exact comma_not_mem_item (h.tags t ht).1 ((h.tags t ht).2.not_mem (by decide))

/-- **Points share an accumulator exactly when they are of one series.** -/
theorem key_eq_iff (hp : p.Plain) (hq : q.Plain) :
    p.key = q.key ↔ p.measurement = q.measurement ∧ p.tags = q.tags := by
  constructor
  · intro hkey
    obtain ⟨hpm, hpt⟩ := key_split (hp.measurement.not_mem (c := '|') (by decide))
    obtain ⟨hqm, hqt⟩ := key_split (hq.measurement.not_mem (c := '|') (by decide))
    refine ⟨by rw [← hpm, ← hqm, hkey], ?_⟩
    rw [← hp.tags_eq, ← hq.tags_eq, ← hpt, ← hqt, hkey]
  · intro ⟨hmeasurement, htags⟩
    unfold key tagText
    rw [hmeasurement, htags]

/-- The measurement and the tags of a point, as they stand in a line. -/
private def parts (p : MetricPoint) : List (List Char) :=
  p.measurement.toList :: p.tags.toList.map fun t => item t.1 t.2.toList

private theorem header_eq (p : MetricPoint) :
    (p.measurement ++ if p.tagText = "" then "" else "," ++ p.tagText).toList =
      [','].intercalate (parts p) := by
  rw [String.toList_append]
  by_cases hnil : p.tags.toList = []
  · have htext : p.tagText = "" := by
      rw [tagText, hnil]
      rfl
    rw [if_pos htext, parts, hnil, List.map_nil, List.intercalate_singleton]
    exact List.append_nil _
  · have hne : p.tagText ≠ "" := by
      intro htext
      have hchars := tagText_toList p
      obtain ⟨t, rest, hcons⟩ := List.exists_cons_of_ne_nil hnil
      have hlen := congrArg List.length hchars
      rw [htext, hcons, List.map_cons, item, List.append_cons] at hlen
      cases rest with
      | nil => simp at hlen
      | cons u rest => simp at hlen
    rw [if_neg hne, parts, List.intercalate_cons_of_ne_nil (by simpa using hnil),
      String.toList_append, tagText_toList, List.append_assoc]
    rfl

private theorem parts_plain (h : p.Plain) :
    ∀ part ∈ parts p, ',' ∉ part ∧ ' ' ∉ part := by
  refine List.forall_mem_cons.mpr ⟨⟨h.measurement.not_mem (by decide), h.measurement.blank⟩, ?_⟩
  intro part hpart
  obtain ⟨t, ht, rfl⟩ := List.mem_map.mp hpart
  obtain ⟨hname, hvalue⟩ := h.tags t ht
  exact ⟨comma_not_mem_item hname (hvalue.not_mem (by decide)),
    blank_not_mem_item hname hvalue.blank⟩

/-- The header has no blank, and starts with the measurement. -/
private theorem header_blank (h : p.Plain) : ' ' ∉ [','].intercalate (parts p) := by
  intro hmem
  rcases mem_intercalate hmem with heq | ⟨part, hpart, hmem⟩
  · exact absurd heq (by decide)
  · exact (parts_plain h part hpart).2 hmem

private theorem header_first (h : p.Plain) : ∃ c rest,
    [','].intercalate (parts p) = c :: rest ∧ pyIsSpace c = false := by
  obtain ⟨c, rest, hcons⟩ := List.exists_cons_of_ne_nil h.measurement.ne_nil
  have hc : pyIsSpace c = false :=
    (h.measurement.2 c (by rw [hcons]; exact List.mem_cons_self ..)).1
  rw [parts, hcons, List.intercalate_cons_cons_left]
  exact ⟨c, _, rfl, hc⟩

end MetricPoint.Plain

/-! ### Lines -/

/-- The fields of a line, as they stand in it. -/
private def fieldParts (l : List (String × ℚ)) : List (List Char) :=
  l.map fun f => item f.1 (formatNumericField f.2).toList

private theorem fieldText_toList (f : String × ℚ) :
    (f.1 ++ "=" ++ formatNumericField f.2).toList =
      item f.1 (formatNumericField f.2).toList := by
  rw [String.toList_append, String.toList_append, List.append_assoc]
  rfl

private theorem fieldsText_next (l : List (String × ℚ)) : ∀ f : String × ℚ,
    item f.1 (formatNumericField f.2).toList ++ (fieldsText false l).toList =
      [','].intercalate (fieldParts (f :: l)) := by
  induction l with
  | nil =>
      intro f
      rw [fieldParts, List.map_cons, List.map_nil, List.intercalate_singleton]
      exact List.append_nil _
  | cons g rest ih =>
      intro f
      rw [fieldParts, List.map_cons, List.intercalate_cons_of_ne_nil (by simp), fieldsText,
        String.toList_append, String.toList_append, fieldText_toList, List.append_assoc, ih g,
        List.append_assoc]
      rfl

/-- Fields stand behind a blank, with commas between them. -/
private theorem fieldsText_first {l : List (String × ℚ)} (hne : l ≠ []) :
    (fieldsText true l).toList = ' ' :: [','].intercalate (fieldParts l) := by
  obtain ⟨f, rest, rfl⟩ := List.exists_cons_of_ne_nil hne
  rw [fieldsText, String.toList_append, String.toList_append, fieldText_toList, List.append_assoc,
    fieldsText_next]
  rfl

private theorem toString_toList {n : ℤ} (h : 0 < n) :
    (toString n).toList = Nat.toDigits 10 n.toNat := by
  obtain ⟨k, rfl⟩ := Int.eq_ofNat_of_zero_le h.le
  show (toString (k : ℕ)).toList = _
  rw [Nat.toString_eq_ofList_toDigits, String.toList_ofList, Int.toNat_natCast]

/-- **The parser takes a line apart at its first and at its last blank.** -/
private theorem parse_cut {head mid : List Char} {n : ℕ} (hhead : ' ' ∉ head)
    (hfirst : ∃ c rest, head = c :: rest ∧ pyIsSpace c = false) :
    parseInfluxLine (String.ofList (head ++ ' ' :: (mid ++ ' ' :: Nat.toDigits 10 n))) =
      some { measurement := String.ofList ((head.splitOn ',').headD [])
             tags := (head.splitOn ',').tail.foldl addTag ∅
             fields := (mid.splitOn ',').foldl addField ∅
             tsNs := n } := by
  have hdigits := fun c hc => isDigit_of_mem_toDigits n (c := c) hc
  have hne : Nat.toDigits 10 n ≠ [] := List.ne_nil_of_length_pos Nat.length_toDigits_pos
  have hblank : ' ' ∉ Nat.toDigits 10 n := fun hmem => absurd (hdigits ' ' hmem) (by decide)
  have hassoc : head ++ ' ' :: (mid ++ ' ' :: Nat.toDigits 10 n) =
      (head ++ ' ' :: mid) ++ ' ' :: Nat.toDigits 10 n := by simp
  -- A line neither starts nor ends with white space.
  have hstrip : strip (head ++ ' ' :: (mid ++ ' ' :: Nat.toDigits 10 n)) =
      head ++ ' ' :: (mid ++ ' ' :: Nat.toDigits 10 n) := by
    obtain ⟨c, rest, rfl, hc⟩ := hfirst
    refine strip_eq (fun d hd => ?_) fun d hd => ?_
    · rw [← Option.some.inj hd]
      exact hc
    · rw [hassoc, List.getLast?_append_of_ne_nil _ (List.cons_ne_nil _ _),
        List.getLast?_cons_of_ne_nil hne] at hd
      exact isDigit_not_space (hdigits d (List.mem_of_getLast? hd))
  have hfind : find ' ' (head ++ ' ' :: (mid ++ ' ' :: Nat.toDigits 10 n)) = some head.length :=
    findIdx?_append_cons _ hhead
  have hrfind : rfind ' ' (head ++ ' ' :: (mid ++ ' ' :: Nat.toDigits 10 n)) =
      some (head ++ ' ' :: mid).length := by
    rw [hassoc]
    exact findIdx?_reverse_append_cons _ hblank
  have hlen : (head ++ ' ' :: mid).length = head.length + 1 + mid.length := by simp; omega
  have hpos : 0 < head.length := by
    obtain ⟨c, rest, rfl, -⟩ := hfirst
    exact Nat.succ_pos _
  have htake : (head ++ ' ' :: (mid ++ ' ' :: Nat.toDigits 10 n)).take head.length = head :=
    List.take_left
  have hmid : ((head ++ ' ' :: (mid ++ ' ' :: Nat.toDigits 10 n)).take
      (head ++ ' ' :: mid).length).drop (head.length + 1) = mid := by
    rw [hassoc, List.take_left, List.append_cons]
    exact List.drop_left' (by simp)
  have hts : (head ++ ' ' :: (mid ++ ' ' :: Nat.toDigits 10 n)).drop
      ((head ++ ' ' :: mid).length + 1) = Nat.toDigits 10 n := by
    rw [hassoc, List.append_cons (head ++ ' ' :: mid)]
    exact List.drop_left' List.length_append
  rw [parseInfluxLine, String.toList_ofList, hstrip, hfind, hrfind]
  simp only [htake, hmid, hts, pyInt_digits, Option.map_some]
  rw [if_neg (by omega)]

namespace MetricPoint.Plain

variable {p q : MetricPoint} {series : SeriesWindow}

/-- The line of a series, as it is put together. -/
private theorem line_text (hp : p.Plain) {now : ℤ} {l : Line}
    (hline : series.line p.key now = some l) (hts : 0 < series.latestTsNs) :
    l.text.toList = [','].intercalate (parts p) ++ ' ' :: ([','].intercalate
      (fieldParts (series.fields.toList.map fun f => (f.1, f.2.value))) ++
        ' ' :: Nat.toDigits 10 series.latestTsNs.toNat) := by
  obtain ⟨hmeasurement, htags⟩ := key_split (hp.measurement.not_mem (c := '|') (by decide))
  unfold SeriesWindow.line at hline
  by_cases hempty : series.fields.isEmpty = true
  · rw [if_pos hempty] at hline
    cases hline
  · rw [if_neg hempty] at hline
    obtain rfl := Option.some.inj hline
    have hne : series.fields.toList.map (fun f => (f.1, f.2.value)) ≠ [] := by
      intro hnil
      refine hempty (Std.ExtTreeMap.isEmpty_iff.mpr ?_)
      exact Std.ExtTreeMap.toList_eq_nil_iff.mp (List.map_eq_nil_iff.mp hnil)
    rw [Line.text, hmeasurement, htags, if_pos hts]
    simp only
    rw [String.toList_append, String.toList_append, header_eq, fieldsText_first hne,
      String.toList_append, toString_toList hts, List.append_assoc]
    rfl

/-- **What the dashboard makes of the line of a series.** -/
private theorem parse_line (hp : p.Plain) (hfields : ∀ f ∈ series.fields.toList, PlainText f.1)
    (hts : 0 < series.latestTsNs) {now : ℤ} {l : Line}
    (hline : series.line p.key now = some l) :
    parseInfluxLine l.text = some { measurement := p.measurement, tags := p.tags
                                    fields := series.fields.map fun _ a => rounded a.value
                                    tsNs := series.latestTsNs } := by
  have htext : l.text = String.ofList l.text.toList := String.ofList_toList.symm
  have hne : series.fields.toList ≠ [] := by
    intro hnil
    unfold SeriesWindow.line at hline
    rw [if_pos (Std.ExtTreeMap.isEmpty_iff.mpr (Std.ExtTreeMap.toList_eq_nil_iff.mp hnil))]
      at hline
    cases hline
  have hhead : ([','].intercalate (parts p)).splitOn ',' = parts p :=
    List.splitOn_intercalate ',' (fun part hpart => (parts_plain hp part hpart).1)
      (List.cons_ne_nil _ _)
  have hmid : ([','].intercalate (fieldParts (series.fields.toList.map fun f =>
      (f.1, f.2.value)))).splitOn ',' =
        fieldParts (series.fields.toList.map fun f => (f.1, f.2.value)) := by
    refine List.splitOn_intercalate ',' (fun part hpart => ?_) (by simpa [fieldParts] using hne)
    obtain ⟨f, hf, rfl⟩ := List.mem_map.mp hpart
    obtain ⟨g, hg, rfl⟩ := List.mem_map.mp hf
    exact comma_not_mem_item (hfields g hg) (not_mem_format (by decide) (by decide) (by decide))
  have hplain : ∀ f ∈ series.fields.toList.map (fun f => (f.1, f.2.value)), PlainText f.1 := by
    intro f hf
    obtain ⟨g, hg, rfl⟩ := List.mem_map.mp hf
    exact hfields g hg
  have htags : (parts p).tail.foldl addTag ∅ = p.tags := by
    rw [parts, List.tail_cons, foldl_addTag hp.tags, GroupFold.foldl_insert_toList]
  have hvalues :
      (fieldParts (series.fields.toList.map fun f => (f.1, f.2.value))).foldl addField ∅ =
        series.fields.map fun _ a => rounded a.value := by
    rw [fieldParts, foldl_addField hplain, List.map_map,
      ← GroupFold.foldl_insert_toList (series.fields.map fun _ a => rounded a.value),
      Std.ExtTreeMap.toList_map]
    rfl
  rw [htext, line_text hp hline hts, parse_cut (header_blank hp) (header_first hp), hhead, hmid,
    htags, hvalues, Int.toNat_of_nonneg hts.le]
  rw [parts, List.headD_cons, String.ofList_toList]

end MetricPoint.Plain

/-- A point the dashboard can follow: plain names, and a positive time. -/
structure MetricPoint.Followed (p : MetricPoint) : Prop extends p.Plain where
  fields : ∀ name ∈ p.fields, PlainText name
  positive : 0 < p.tsNs

/-- Every line of points that can be followed is parsed into the series of its points and the
values their fields come to. -/
theorem Aggregator.Sound.decodes {s : Aggregator} (hsound : s.Sound)
    (hadded : ∀ p ∈ s.added, p.Followed) :
    ∀ r ∈ s.emitted, ∀ p ∈ r.points, parseInfluxLine r.line.text =
      some { measurement := p.measurement, tags := p.tags
             fields := (SeriesWindow.ofPoints r.points).fields.map fun _ a => rounded a.value
             tsNs := (SeriesWindow.ofPoints r.points).latestTsNs } := by
  intro r hr p hp
  have hmade := hsound.made r hr
  have hfollowed : ∀ q ∈ r.points, q.Followed := by
    obtain ⟨w, hw, hpoints⟩ := hmade.window
    intro q hq
    rw [hpoints] at hq
    refine hadded q ?_
    rw [hsound.added]
    exact List.mem_append_left _ (List.mem_flatten.mpr ⟨w, hw, (List.mem_filter.mp hq).1⟩)
  obtain ⟨now, hline⟩ := hmade.line
  rw [← hmade.series p hp] at hline
  refine (hfollowed p hp).toPlain.parse_line (fun f hf => ?_) ?_ hline
  · have hfield := SeriesWindow.getElem?_fields_ofPoints r.points f.1
    rw [Std.ExtTreeMap.mem_toList_iff_getElem?_eq_some.mp hf] at hfield
    have hsamples : samples f.1 r.points ≠ [] := by
      intro hnil
      rw [if_pos hnil] at hfield
      cases hfield
    obtain ⟨q, hq, hname⟩ := samples_ne_nil.mp hsamples
    exact (hfollowed q hq).fields f.1 hname
  · rcases latest_ofPoints fun q hq => (hfollowed q hq).positive with ⟨hnil, -⟩ | ⟨q, hq, hts, -⟩
    · exact absurd hnil hmade.nonempty
    · rw [← hts]
      exact (hfollowed q hq).positive

/-- **The dashboard decodes what is emitted.**  In every run on such points, every line is parsed
into the series of its points and the values their fields come to. -/
theorem Aggregator.emitted_decodes {as : List AggregatorStep} {s : Aggregator}
    (hrun : Aggregator.exec {} as = some s) (hadded : ∀ p ∈ s.added, p.Followed) :
    ∀ r ∈ s.emitted, ∀ p ∈ r.points, parseInfluxLine r.line.text =
      some { measurement := p.measurement, tags := p.tags
             fields := (SeriesWindow.ofPoints r.points).fields.map fun _ a => rounded a.value
             tsNs := (SeriesWindow.ofPoints r.points).latestTsNs } :=
  (Aggregator.exec_sound Aggregator.init_sound hrun).decodes hadded

/-- **The dashboard decodes what the aggregator encodes.**  For every series and every window of
it that has fields, with plain names and a positive time, the line that is emitted is parsed
into its measurement, its tags, its fields with the values rounded, and its time; and two
points share an accumulator exactly when they have the same measurement and tags. -/
theorem MetricPoint.line_decodes (p : MetricPoint) (hp : p.Plain) (series : SeriesWindow)
    (hne : series.fields ≠ ∅) (hfields : ∀ f ∈ series.fields.toList, PlainText f.1)
    (hts : 0 < series.latestTsNs) (now : ℤ) :
    (∃ l, series.line p.key now = some l ∧
      parseInfluxLine l.text = some { measurement := p.measurement, tags := p.tags
                                      fields := series.fields.map fun _ a => rounded a.value
                                      tsNs := series.latestTsNs }) ∧
      ∀ q : MetricPoint, q.Plain →
        (p.key = q.key ↔ p.measurement = q.measurement ∧ p.tags = q.tags) := by
  refine ⟨?_, fun q hq => hp.key_eq_iff hq⟩
  have hsome : ∃ l, series.line p.key now = some l := by
    refine ⟨_, if_neg ?_⟩
    rw [Std.ExtTreeMap.isEmpty_iff]
    exact hne
  obtain ⟨l, hline⟩ := hsome
  exact ⟨l, hline, hp.parse_line hfields hts hline⟩

/-- One tag and one field. -/
theorem MetricPoint.line_decodes_one :
    let p : MetricPoint := { measurement := "mac", tags := .ofList [("ue", "1")], fields := ∅ }
    let bits : WindowAccum := { aggregation := .sum, sum := 7 / 3 }
    let series : SeriesWindow := { fields := .ofList [("bits", bits)], latestTsNs := 20 }
    ∃ l, series.line p.key 0 = some l ∧ l.text = "mac,ue=1 bits=2.333333 20" ∧
      parseInfluxLine l.text = some { measurement := "mac", tags := .ofList [("ue", "1")]
                                      fields := .ofList [("bits", (2333333 : ℚ) / 1000000)]
                                      tsNs := 20 } := by
  intro p bits series
  have hp : p.Plain := ⟨by decide +kernel, by decide +kernel⟩
  obtain ⟨l, hline, hparse⟩ := (p.line_decodes hp series (by decide +kernel) (by decide +kernel)
    (by decide +kernel) 0).1
  have hl : l = ⟨"mac", "ue=1", [("bits", 7 / 3)], 20⟩ :=
    Option.some.inj (hline.symm.trans (by decide +kernel))
  subst hl
  exact ⟨_, hline, by decide +kernel, hparse.trans (by decide +kernel)⟩

end NetworkEmulator
