/-
When the reading of the traffic files ends.

A text is a list of complete records, and then a read that fails, which may store a time of
its own.  At the end of the text the file is started over, and the time of the last read
becomes the offset of the next pass: `offset` lists the offsets of the passes.  The offset is
a `float`, so it stops growing where the time of the last record is below its last place.

The loop ends once a time it compares is past the call, and it compares no times but 0, those
of the records, and those of the records with an offset added (`Compared`).  Whatever calls
came before, the passes of a call run through the offsets from some point on, and as these
are monotone the call meets its time if there is one: `calls_return_iff`.

A text whose failed read stores nothing is the trace of its records: `calls_constructed`.
-/
import NetworkEmulator.Proofs.Replay
import NetworkEmulator.Model.TrafficText

namespace NetworkEmulator

open Rounding

/-! ### Reads that consume -/

private theorem numeralSign_length (s : List Char) : (numeralSign s).2.length ≤ s.length := by
  unfold numeralSign
  split <;> simp

private theorem dropWhile_length (p : Char → Bool) (s : List Char) :
    (s.dropWhile p).length ≤ s.length := (List.dropWhile_suffix p).length_le

/-- A numeral has a digit. -/
private theorem dropWhile_length_lt {p : Char → Bool} {s : List Char} (h : s.takeWhile p ≠ []) :
    (s.dropWhile p).length < s.length := by
  have hlen := congrArg List.length (List.takeWhile_append_dropWhile (p := p) (l := s))
  rw [List.length_append] at hlen
  have := List.length_pos_of_ne_nil h
  omega

private theorem scanMantissa_length {s : List Char} :
    (scanMantissa s).2.2.length ≤ s.length ∧
      ((scanMantissa s).1 ++ (scanMantissa s).2.1 ≠ [] →
        (scanMantissa s).2.2.length < s.length) := by
  have hwhole := dropWhile_length Char.isDigit s
  unfold scanMantissa
  split
  · next rest hrest =>
    have hdrop := dropWhile_length Char.isDigit rest
    rw [hrest, List.length_cons] at hwhole
    exact ⟨by simp only; omega, fun _ => by simp only; omega⟩
  · next rest =>
    refine ⟨hwhole, fun hdigits => dropWhile_length_lt ?_⟩
    rwa [List.append_nil] at hdigits

private theorem scanExponent_length (s : List Char) :
    (scanExponent s).2.length ≤ s.length := by
  unfold scanExponent
  split
  · next c s =>
    by_cases he : c = 'e' ∨ c = 'E'
    · rw [if_pos he]
      have hsign := numeralSign_length s
      have hdrop := dropWhile_length Char.isDigit (numeralSign s).2
      simp only [List.length_cons]
      omega
    · rw [if_neg he]
  · exact le_rfl

private theorem scanNumeral_length {s rest : List Char} {v : ℚ}
    (h : scanNumeral s = (some v, rest)) : rest.length < s.length := by
  unfold scanNumeral at h
  have hsign := numeralSign_length s
  have hmantissa := scanMantissa_length (s := (numeralSign s).2)
  have hexponent := scanExponent_length (scanMantissa (numeralSign s).2).2.2
  simp only at h
  by_cases hdigits : (scanMantissa (numeralSign s).2).1 ++
      (scanMantissa (numeralSign s).2).2.1 = []
  · rw [if_pos hdigits] at h
    cases h
  · rw [if_neg hdigits] at h
    rw [← (Prod.mk.inj h).2]
    exact hexponent.trans_lt ((hmantissa.2 hdigits).trans_le hsign)

namespace FileStream

/-- A number that is read is one of the type, and is taken from a good stream. -/
private theorem extract_number {f : Format} {s s' : FileStream} {v : ℚ}
    (h : s.extract f = (.number v, s')) : f.Holds v ∧ s'.rest.length < s.rest.length := by
  unfold extract at h
  have hspace := dropWhile_length isSpace s.rest
  split at h
  · split at h
    · cases h
    · split at h
      · next v' rest hscan =>
        have hlt := scanNumeral_length hscan
        by_cases hrange : |f.round v'| < 2 ^ f.maxExponent
        · rw [if_pos hrange] at h
          obtain ⟨hv, rfl⟩ := Prod.mk.inj h
          obtain rfl := Extracted.number.inj hv
          exact ⟨Format.holds_round hrange, hlt.trans_le hspace⟩
        · rw [if_neg hrange] at h
          cases h
      · cases h
  · cases h

/-- A read that fails leaves the stream bad. -/
private theorem extract_good {s : FileStream} (f : Format)
    (h : (s.extract f).1.isNumber = false) : (s.extract f).2.good = false := by
  unfold extract at h ⊢
  by_cases hgood : s.good = true
  · rw [if_pos hgood] at h ⊢
    split
    · rfl
    · next hrest =>
      rw [if_neg hrest] at h
      split
      · next v rest hscan =>
        rw [hscan] at h
        by_cases hrange : |f.round v| < 2 ^ f.maxExponent
        · simp only [if_pos hrange, Extracted.isNumber] at h
          cases h
        · simp only [if_neg hrange]
      · rfl
  · rw [if_neg hgood]
    exact Bool.eq_false_iff.mpr hgood

private theorem extract_bad {s : FileStream} (f : Format) (h : s.good = false) :
    s.extract f = (.nothing, s) := by
  rw [extract, if_neg (Bool.eq_false_iff.mp h)]

/-! ### What a file still holds -/

/-- What there is in a file for so many reads: the records, and what `last_t` becomes when
there are no more, which may be nothing new. -/
def view : ℕ → FileStream → List (ℚ × ℚ) × Option ℚ
  | 0, _ => ([], none)
  | n + 1, s =>
    match s.readRecord with
    | (.number t, .number tp, s) => ((t, tp) :: (view n s).1, (view n s).2)
    | (t, _, _) => ([], t.stored)

/-- What there is in a file. -/
def contents (s : FileStream) : List (ℚ × ℚ) × Option ℚ := view (s.rest.length + 1) s

/-- A record that is read is a `double` and a `float`. -/
private theorem readRecord_record {s s' : FileStream} {t tp : ℚ}
    (h : s.readRecord = (.number t, .number tp, s')) :
    (binary64.Holds t ∧ binary32.Holds tp) ∧ s'.rest.length < s.rest.length := by
  unfold readRecord at h
  rcases hx : s.extract binary64 with ⟨x, s₁⟩
  rcases hy : s₁.extract binary32 with ⟨y, s₂⟩
  simp only [hx, hy] at h
  obtain ⟨rfl, rfl, rfl⟩ : x = .number t ∧ y = .number tp ∧ s₂ = s' := by simpa using h
  obtain ⟨ht, hlt⟩ := extract_number hx
  obtain ⟨htp, hlt'⟩ := extract_number hy
  exact ⟨⟨ht, htp⟩, hlt'.trans hlt⟩

/-- A record that is not read leaves the stream bad. -/
private theorem readRecord_good {s s' : FileStream} {t tp : Extracted}
    (h : s.readRecord = (t, tp, s')) (htp : tp.isNumber = false) : s'.good = false := by
  unfold readRecord at h
  rcases hx : s.extract binary64 with ⟨x, s₁⟩
  have hgood := extract_good (s := s₁) binary32
  rcases hy : s₁.extract binary32 with ⟨y, s₂⟩
  simp only [hx, hy] at h hgood
  obtain ⟨rfl, rfl, rfl⟩ : x = t ∧ y = tp ∧ s₂ = s' := by simpa using h
  exact hgood htp

/-- The bytes of a record are read after its time. -/
private theorem readRecord_number {s s' : FileStream} {t tp : Extracted}
    (h : s.readRecord = (t, tp, s')) (htp : tp.isNumber = true) :
    ∃ v w, t = .number v ∧ tp = .number w := by
  unfold readRecord at h
  rcases hx : s.extract binary64 with ⟨x, s₁⟩
  have hbad := extract_good (s := s) binary64
  rcases hy : s₁.extract binary32 with ⟨y, s₂⟩
  simp only [hx, hy] at h hbad
  obtain ⟨rfl, rfl, rfl⟩ : x = t ∧ y = tp ∧ s₂ = s' := by simpa using h
  by_cases hnumber : x.isNumber = true
  · cases x <;> cases y <;> simp_all [Extracted.isNumber]
  · have hy' := extract_bad binary32 (hbad (Bool.eq_false_iff.mpr hnumber))
    rw [hy] at hy'
    rw [(Prod.mk.inj hy').1] at htp
    cases htp

private theorem readRecord_bad {s : FileStream} (h : s.good = false) :
    s.readRecord = (.nothing, .nothing, s) := by
  rw [readRecord, extract_bad _ h]
  simp only [extract_bad _ h]

/-- More reads than there are characters find nothing more. -/
private theorem view_eq {n : ℕ} : ∀ {m : ℕ} {s : FileStream}, s.rest.length < n →
    s.rest.length < m → view n s = view m s := by
  induction n with
  | zero => intro m s hn _; exact absurd hn (Nat.not_lt_zero _)
  | succ n ih =>
      intro m s hn hm
      cases m with
      | zero => exact absurd hm (Nat.not_lt_zero _)
      | succ m =>
          unfold view
          split
          · next t tp s' hread =>
            have hlt := (readRecord_record hread).2
            rw [ih (show s'.rest.length < n by omega) (show s'.rest.length < m by omega)]
          · rfl

private theorem view_holds {n : ℕ} : ∀ {s : FileStream}, ∀ a ∈ (view n s).1,
    binary64.Holds a.1 ∧ binary32.Holds a.2 := by
  induction n with
  | zero => intro s a ha; cases ha
  | succ n ih =>
      intro s a ha
      unfold view at ha
      split at ha
      · next t tp s' hread =>
        rcases List.mem_cons.mp ha with rfl | ha
        · exact (readRecord_record hread).1
        · exact ih a ha
      · cases ha

/-- A record that is read is the first of what there is. -/
theorem contents_record {s s' : FileStream} {t tp : ℚ}
    (h : s.readRecord = (.number t, .number tp, s')) :
    s.contents = ((t, tp) :: s'.contents.1, s'.contents.2) := by
  have hlt := (readRecord_record h).2
  have hview : view s.rest.length s' = s'.contents := view_eq hlt (Nat.lt_succ_self _)
  rw [contents, view, h]
  simp only [hview]

theorem contents_failed {s s' : FileStream} {t tp : Extracted}
    (h : s.readRecord = (t, tp, s')) (htp : tp.isNumber = false) :
    s.contents = ([], t.stored) := by
  rw [contents, view, h]
  cases t <;> cases tp <;> first | rfl | cases htp

theorem contents_bad {s : FileStream} (h : s.good = false) : s.contents = ([], none) :=
  contents_failed (readRecord_bad h) rfl

end FileStream

namespace TextReader

open FileStream

/-! ### The reads of the loop -/

/-- A reader whose file still holds a record reads it. -/
theorem read_cons {r : TextReader} {a : ℚ × ℚ} {l : List (ℚ × ℚ)} {w : Option ℚ}
    (h : r.file.contents = (a :: l, w)) : ∃ file, file.contents = (l, w) ∧
      r.read = ({ r with file := file, lastT := a.1, lastTp := a.2 }, true) := by
  rcases hread : r.file.readRecord with ⟨t, tp, file⟩
  by_cases htp : tp.isNumber = true
  · obtain ⟨v, v', rfl, rfl⟩ := readRecord_number hread htp
    rw [contents_record hread] at h
    obtain ⟨hcons, rfl⟩ := Prod.mk.inj h
    obtain ⟨rfl, rfl⟩ := List.cons.inj hcons
    refine ⟨file, rfl, ?_⟩
    rw [read, hread]
    rfl
  · rw [contents_failed hread (Bool.eq_false_iff.mpr htp)] at h
    cases h

/-- One whose file holds none fails, and takes the time that is stored. -/
theorem read_nil {r : TextReader} {w : Option ℚ} (h : r.file.contents = ([], w)) :
    ∃ file tp, file.contents = ([], none) ∧
      r.read = ({ r with file := file, lastT := w.getD r.lastT, lastTp := tp }, false) := by
  rcases hread : r.file.readRecord with ⟨t, tp, file⟩
  by_cases htp : tp.isNumber = true
  · obtain ⟨v, v', rfl, rfl⟩ := readRecord_number hread htp
    rw [contents_record hread] at h
    cases h
  · have htp := Bool.eq_false_iff.mpr htp
    rw [contents_failed hread htp] at h
    obtain ⟨-, rfl⟩ := Prod.mk.inj h
    refine ⟨file, tp.stored.getD r.lastTp, contents_bad (readRecord_good hread htp), ?_⟩
    simp only [read, hread, htp]

/-- The records of a text. -/
def records (text : List Char) : List (ℚ × ℚ) := (contents { rest := text }).1

/-- The time that the read after the last record stores. -/
def leftover (text : List Char) : Option ℚ := (contents { rest := text }).2

/-- A record is a `double` and a `float`. -/
theorem records_holds {text : List Char} {a : ℚ × ℚ} (ha : a ∈ records text) :
    binary64.Holds a.1 ∧ binary32.Holds a.2 := view_holds a ha

private theorem contents_start (text : List Char) :
    contents { rest := text } = (records text, leftover text) := rfl

/-- The state after a record was read. -/
private def took (r : TextReader) (t : ℚ) (file : FileStream) (a : ℚ × ℚ) : TextReader :=
  { r with file := file, lastT := if a.1 ≤ t then binary64.store (a.1 + r.tAcc) else a.1
           lastTp := a.2 }

private theorem accept_took {r : TextReader} {t : ℚ} {file : FileStream} {a : ℚ × ℚ} :
    ({ r with file := file, lastT := a.1, lastTp := a.2 } : TextReader).accept t =
      (r.took t file a, if a.1 ≤ t then a.2 else 0) := by
  unfold accept took
  by_cases ha : a.1 ≤ t
  · simp only [if_pos ha]
  · simp only [if_neg ha]

section Body

variable {r : TextReader} {a : ℚ × ℚ} {l : List (ℚ × ℚ)} {u w : Option ℚ}

/-- The body, while there are records. -/
theorem body_cons (h : r.file.contents = (a :: l, w)) (t : ℚ) :
    ∃ file, file.contents = (l, w) ∧ (r.body t).1 = r.took t file a ∧
      (r.body t).2 = if a.1 ≤ t then a.2 else 0 := by
  obtain ⟨file, hfile, hread⟩ := read_cons h
  have hbody : r.body t = (r.took t file a, if a.1 ≤ t then a.2 else 0) := by
    rw [body, hread]
    exact accept_took
  exact ⟨file, hfile, congrArg Prod.fst hbody, congrArg Prod.snd hbody⟩

/-- The state that the next pass starts from, with `d` the new offset. -/
private def restarted (r : TextReader) (d : ℚ) : TextReader :=
  { r with file := { rest := r.text }, tAcc := d }

/-- At the end of the records the body is the first of the next pass. -/
theorem body_rewind (h : r.file.contents = ([], u)) (hne : records r.text ≠ []) (t : ℚ) :
    r.body t = (r.restarted (binary32.store (u.getD r.lastT))).body t := by
  obtain ⟨b, m, hrecords⟩ := List.exists_cons_of_ne_nil hne
  have hstart : contents { rest := r.text } = (b :: m, leftover r.text) := by
    rw [contents_start, hrecords]
  obtain ⟨file, tp, -, hread⟩ := read_nil h
  have hnext := read_cons (r := ({ r with file := file, lastT := u.getD r.lastT, lastTp := tp } :
    TextReader).rewound) hstart
  have hfirst := read_cons (r := r.restarted (binary32.store (u.getD r.lastT))) hstart
  obtain ⟨file₁, -, hread₁⟩ := hnext
  obtain ⟨file₂, -, hread₂⟩ := hfirst
  have hfile : file₁ = file₂ :=
    (congrArg (·.1.file) hread₁).symm.trans (congrArg (·.1.file) hread₂)
  rw [body, hread]
  simp only [hread₁]
  rw [body, hread₂, hfile]
  rfl

/-- Without records the body leaves what the failed reads store. -/
theorem body_empty (h : r.file.contents = ([], u)) (hrecords : records r.text = []) (t : ℚ) :
    ∃ file tp, file.contents = ([], none) ∧ (r.body t).1 =
      { r with file := file, lastT := (leftover r.text).getD (u.getD r.lastT), lastTp := tp
               tAcc := binary32.store (u.getD r.lastT) } := by
  have hstart : contents { rest := r.text } = ([], leftover r.text) := by
    rw [contents_start, hrecords]
  obtain ⟨file, tp, -, hread⟩ := read_nil h
  obtain ⟨file', tp', hfile', hread'⟩ := read_nil (r := ({ r with
    file := file, lastT := u.getD r.lastT, lastTp := tp } : TextReader).rewound) hstart
  refine ⟨file', tp', hfile', ?_⟩
  rw [body, hread]
  simp only [hread']
  rfl

end Body

private theorem body_text (r : TextReader) (t : ℚ) : (r.body t).1.text = r.text := by
  have hread : ∀ r : TextReader, r.read.1.text = r.text := fun _ => rfl
  have haccept : ∀ r : TextReader, (r.accept t).1.text = r.text := by
    intro r
    unfold accept
    split <;> rfl
  unfold body
  split
  · next r' h => rw [haccept, ← hread r, h]
  · next r' h =>
    have hfirst := hread r
    rw [h] at hfirst
    split
    · next r'' h' =>
      have hsecond := hread r'.rewound
      rw [h'] at hsecond
      rw [haccept, hsecond]
      exact hfirst
    · next r'' h' =>
      have hsecond := hread r'.rewound
      rw [h'] at hsecond
      exact hsecond.trans hfirst

/-! ### A text that is a trace -/

/-- A reader of a text that is where a reader of its records is. -/
structure Follows (r : TextReader) (s : TraceReader) : Prop where
  file : r.file.contents = (s.file, none)
  lastT : r.lastT = s.lastT
  lastTp : r.lastTp = s.lastTp
  tAcc : r.tAcc = s.tAcc

section Follows

variable {r : TextReader} {s : TraceReader}

private theorem Follows.cons (h : Follows r s) {a : ℚ × ℚ} {l : List (ℚ × ℚ)}
    (hfile : r.file.contents = (a :: l, none)) (t : ℚ) :
    Follows (r.body t).1 (s.accept t a l).1 ∧ (r.body t).2 = (s.accept t a l).2 := by
  obtain ⟨file, hfile', hbody, hamount⟩ := body_cons hfile t
  rw [hbody, hamount, TraceReader.accept]
  by_cases ha : a.1 ≤ t
  · simp only [if_pos ha]
    refine ⟨⟨hfile', ?_, rfl, h.tAcc⟩, trivial⟩
    show (if a.1 ≤ t then binary64.store (a.1 + r.tAcc) else a.1) = binary64.store (a.1 + s.tAcc)
    rw [if_pos ha, h.tAcc]
  · simp only [if_neg ha]
    exact ⟨⟨hfile', if_neg ha, rfl, h.tAcc⟩, trivial⟩

/-- **The body on a text is the body on its records.** -/
theorem Follows.body (h : Follows r s) (hleft : leftover r.text = none)
    (hne : records r.text ≠ []) (t : ℚ) :
    Follows (r.body t).1 (s.body (records r.text) t).1 ∧
      (r.body t).2 = (s.body (records r.text) t).2 := by
  obtain ⟨b, m, hrecords⟩ := List.exists_cons_of_ne_nil hne
  rcases hrest : s.file with _ | ⟨a, l⟩
  · have hfile := h.file
    rw [hrest] at hfile
    rw [body_rewind hfile hne, TraceReader.body, hrest, hrecords]
    have hstart : (r.restarted (binary32.store r.lastT)).file.contents = (b :: m, none) := by
      rw [← hrecords, ← hleft]
      rfl
    have hfollows : Follows (r.restarted (binary32.store r.lastT))
        { s with tAcc := binary32.store s.lastT, file := b :: m } :=
      ⟨hstart, h.lastT, h.lastTp, congrArg binary32.store h.lastT⟩
    exact hfollows.cons hstart t
  · have hfile := h.file
    rw [hrest] at hfile
    rw [TraceReader.body, hrest]
    exact h.cons hfile t

private theorem Follows.loop {t : ℚ} (fuel : ℕ) : ∀ {r : TextReader} {s : TraceReader} {total : ℚ}
    {x : TraceReader × ℚ}, Follows r s → leftover r.text = none → records r.text ≠ [] →
    TraceReader.loop (records r.text) t fuel s total = some x →
    ∃ r', loop t fuel r total = some (r', x.2) ∧ Follows r' x.1 ∧ r'.text = r.text := by
  induction fuel with
  | zero => intro _ _ _ _ _ _ _ h; cases h
  | succ fuel ih =>
      intro r s total x hfollows hleft hne h
      obtain ⟨hnext, hamount⟩ := hfollows.body hleft hne t
      have htext := body_text r t
      rw [TraceReader.loop] at h
      rw [TextReader.loop, hfollows.lastT]
      by_cases hs : s.lastT ≤ t
      · rw [if_pos hs] at h ⊢
        rw [← hamount] at h
        obtain ⟨r', hloop, hfollows', htext'⟩ :=
          ih hnext (by rwa [htext]) (by rwa [htext]) (by rwa [htext])
        exact ⟨r', hloop, hfollows', htext'.trans htext⟩
      · rw [if_neg hs] at h ⊢
        obtain rfl := Option.some.inj h
        exact ⟨r, rfl, hfollows, rfl⟩

/-- A call on a text returns what the call on its records does. -/
theorem Follows.generate {t : ℚ} {fuel : ℕ} {x : TraceReader × ℚ} (h : Follows r s)
    (hleft : leftover r.text = none) (hne : records r.text ≠ [])
    (hcall : s.generate (records r.text) fuel t = some x) :
    ∃ r', r.generate fuel t = some (r', x.2) ∧ Follows r' x.1 ∧ r'.text = r.text := by
  obtain ⟨y, hloop, rfl⟩ := Option.map_eq_some_iff.mp hcall
  rw [← h.lastT, ← h.lastTp] at hloop
  obtain ⟨r', hloop', hfollows, htext⟩ := h.loop fuel hleft hne hloop
  refine ⟨r', ?_, hfollows, htext⟩
  rw [TextReader.generate, hloop']
  rfl

end Follows

/-! ### Calls that return -/

/-- A call at `t` returns from a state. -/
def Returns (t : ℚ) (r : TextReader) : Prop := ∃ fuel, (loop t fuel r 0).isSome

section Returns

variable {t : ℚ} {r : TextReader}

/-- Whether the loop ends does not depend on the total. -/
private theorem loop_isSome (fuel : ℕ) : ∀ (r : TextReader) (total total' : ℚ),
    (loop t fuel r total).isSome = (loop t fuel r total').isSome := by
  induction fuel with
  | zero => intro _ _ _; rfl
  | succ fuel ih =>
      intro r total total'
      rw [loop, loop]
      by_cases hr : r.lastT ≤ t
      · rw [if_pos hr, if_pos hr]
        exact ih ..
      · rw [if_neg hr, if_neg hr]
        rfl

private theorem returns_of_lt (h : t < r.lastT) : Returns t r :=
  ⟨1, by rw [loop, if_neg (not_le.mpr h)]; rfl⟩

private theorem returns_body_iff (h : r.lastT ≤ t) : Returns t (r.body t).1 ↔ Returns t r := by
  constructor
  · intro ⟨fuel, hfuel⟩
    refine ⟨fuel + 1, ?_⟩
    rwa [loop, if_pos h, loop_isSome fuel _ _ 0]
  · intro ⟨fuel, hfuel⟩
    cases fuel with
    | zero => exact absurd hfuel (by simp [loop])
    | succ fuel =>
        refine ⟨fuel, ?_⟩
        rwa [loop, if_pos h, loop_isSome fuel _ _ 0] at hfuel

private theorem returns_of_body (h : Returns t (r.body t).1) : Returns t r := by
  by_cases hle : r.lastT ≤ t
  · exact (returns_body_iff hle).mp h
  · exact returns_of_lt (not_le.mp hle)

/-- A call returns if it does from the end of the pass, when no time of the pass is past it. -/
private theorem returns_of_end {l : List (ℚ × ℚ)} {w : Option ℚ} : ∀ {r : TextReader},
    r.file.contents = (l, w) →
    (∀ r' : TextReader, r'.text = r.text → r'.file.contents = ([], w) →
      r'.lastT = (l.map fun a => binary64.store (a.1 + r.tAcc)).getLastD r.lastT →
      (∀ a ∈ l, a.1 ≤ t ∧ binary64.store (a.1 + r.tAcc) ≤ t) → Returns t r') → Returns t r := by
  induction l with
  | nil =>
      intro r hfile hend
      exact hend r rfl hfile rfl fun a ha => absurd ha List.not_mem_nil
  | cons a l ih =>
      intro r hfile hend
      obtain ⟨file, hfile', hbody, -⟩ := body_cons hfile t
      refine returns_of_body ?_
      rw [hbody]
      by_cases ha : a.1 ≤ t
      · have htook : (r.took t file a).lastT = binary64.store (a.1 + r.tAcc) := if_pos ha
        by_cases hacc : binary64.store (a.1 + r.tAcc) ≤ t
        · refine ih hfile' fun r' htext hcontents hlast hl => hend r' htext hcontents ?_ ?_
          · rw [List.map_cons, List.getLastD_cons, hlast, htook]
            rfl
          · intro b hb
            rcases List.mem_cons.mp hb with rfl | hb
            · exact ⟨ha, hacc⟩
            · exact hl b hb
        · exact returns_of_lt (by rw [htook]; exact not_le.mp hacc)
      · have htook : (r.took t file a).lastT = a.1 := if_neg ha
        exact returns_of_lt (by rw [htook]; exact not_le.mp ha)

/-- At the end of the records a call returns if the next pass does. -/
private theorem returns_of_restarted {u : Option ℚ} (hfile : r.file.contents = ([], u))
    (hne : records r.text ≠ []) (h : Returns t (r.restarted (binary32.store (u.getD r.lastT)))) :
    Returns t r := by
  by_cases hle : r.lastT ≤ t
  · refine returns_of_body ?_
    rw [body_rewind hfile hne]
    exact (returns_body_iff (r := r.restarted (binary32.store (u.getD r.lastT))) hle).mpr h
  · exact returns_of_lt (not_le.mp hle)

end Returns

/-! ### The offsets of the passes -/

/-- The offset of the pass after one with the offset `d`. -/
def nextOffset (text : List Char) (d : ℚ) : ℚ :=
  match leftover text with
  | some v => binary32.store v
  | none => Trace.nextOffset (records text) d

/-- The offset of pass `k`. -/
def offset (text : List Char) (k : ℕ) : ℚ := (nextOffset text)^[k] 0

section Offset

variable {text : List Char}

private theorem offset_succ (k : ℕ) : offset text (k + 1) = nextOffset text (offset text k) :=
  Function.iterate_succ_apply' ..

private theorem nextOffset_eq (d : ℚ) : nextOffset text d =
    binary32.store ((leftover text).getD (binary64.store (Trace.period (records text) + d))) := by
  unfold nextOffset
  split <;> rename_i hv <;> rw [hv] <;> rfl

/-- A time that the failed read stores is the offset of every later pass. -/
private theorem nextOffset_of_some {v : ℚ} (hv : leftover text = some v) (d : ℚ) :
    nextOffset text d = binary32.store v := by rw [nextOffset, hv]

private theorem nextOffset_of_none (hv : leftover text = none) (d : ℚ) :
    nextOffset text d = binary32.store (binary64.store (Trace.period (records text) + d)) := by
  rw [nextOffset, hv]
  rfl

private theorem nextOffset_mono : Monotone (nextOffset text) := by
  intro d d' hle
  rcases hv : leftover text with _ | v
  · rw [nextOffset_of_none hv, nextOffset_of_none hv]
    exact Format.store_mono (Format.store_mono (by linarith))
  · rw [nextOffset_of_some hv, nextOffset_of_some hv]

/-- **The offsets grow, or none is above 0.** -/
private theorem offset_mono_or_nonpos (text : List Char) :
    Monotone (offset text) ∨ ∀ k, offset text k ≤ 0 := by
  rcases le_total 0 (nextOffset text 0) with h | h
  · exact Or.inl (nextOffset_mono.monotone_iterate_of_le_map h)
  · exact Or.inr fun k => nextOffset_mono.antitone_iterate_of_map_le h (Nat.zero_le k)

/-- Offsets do not get past one that is not moved. -/
private theorem offset_le {d : ℚ} (hpos : 0 ≤ d) (hd : nextOffset text d ≤ d) (k : ℕ) :
    offset text k ≤ d := by
  induction k with
  | zero => exact hpos
  | succ k ih =>
      rw [offset_succ]
      exact (nextOffset_mono ih).trans hd

end Offset

/-! ### The states of a text -/

/-- The times that are compared with the time of a call. -/
def Compared (text : List Char) (x : ℚ) : Prop :=
  x = 0 ∨
    (∃ a ∈ records text, x = a.1 ∨ ∃ k, x = binary64.store (a.1 + offset text k)) ∨
    (records text = [] ∧ leftover text = some x)

/-- A call at `t` comes before a time that is compared with it. -/
def Passes (text : List Char) (t : ℚ) : Prop := ∃ x, Compared text x ∧ t < x

/-- Nothing past `t` is compared once the offset `d` is not moved. -/
theorem not_passes {text : List Char} {t d : ℚ} (ht : 0 ≤ t) (hd : 0 ≤ d)
    (hstuck : nextOffset text d ≤ d)
    (hrecords : ∀ a ∈ records text, a.1 ≤ t ∧ binary64.store (a.1 + d) ≤ t)
    (hleft : ∀ v ∈ leftover text, v ≤ t) : ¬ Passes text t := by
  rintro ⟨x, hx, hlt⟩
  refine absurd hlt (not_lt.mpr ?_)
  rcases hx with rfl | ⟨a, ha, rfl | ⟨k, rfl⟩⟩ | ⟨-, hv⟩
  · exact ht
  · exact (hrecords a ha).1
  · refine (Format.store_mono ?_).trans (hrecords a ha).2
    linarith [offset_le hd hstuck k]
  · exact hleft x hv

/-- **What holds between two reads**: what is left to read is the end of the text, the offset
of this pass and that of the next are of the text, and so is the time that is compared. -/
structure Reading (r : TextReader) : Prop where
  suffix : r.file.contents.1 <:+ records r.text
  left : r.file.contents.2 = leftover r.text ∨ (r.file.contents.2 = none ∧ records r.text = [])
  acc : ∃ k, r.tAcc = offset r.text k
  next : r.file.contents.1 = [] →
    ∃ k, binary32.store (r.file.contents.2.getD r.lastT) = offset r.text k
  compared : Compared r.text r.lastT

/-- A reader starts at the start of its text. -/
private theorem Reading.start (text : List Char) : Reading { text := text } where
  suffix := List.suffix_rfl
  left := Or.inl rfl
  acc := ⟨0, rfl⟩
  next _ := by
    show ∃ k, binary32.store ((leftover text).getD 0) = _
    rcases hv : leftover text with _ | v
    · exact ⟨0, Format.store_zero⟩
    · exact ⟨1, (nextOffset_of_some hv 0).symm⟩
  compared := Or.inl rfl

private theorem getLastD_map_store {l : List (ℚ × ℚ)} (hl : l ≠ []) (c d : ℚ) :
    (l.map fun a => binary64.store (a.1 + c)).getLastD d =
      binary64.store (Trace.period l + c) := by
  rw [Trace.period, List.getLastD_eq_getLast?, List.getLastD_eq_getLast?, List.getLast?_map,
    List.getLast?_map, List.getLast?_eq_some_getLast hl]
  rfl

/-- The last record of a text is the last of its ends. -/
private theorem period_of_suffix {l m : List (ℚ × ℚ)} (hl : l ≠ []) (h : l <:+ m) :
    Trace.period m = Trace.period l := by
  obtain ⟨k, rfl⟩ := h
  rw [Trace.period, Trace.period, List.map_append, List.getLastD_eq_getLast?,
    List.getLastD_eq_getLast?, List.getLast?_append_of_ne_nil _ (by simpa using hl)]

section Step

variable {r : TextReader} {a : ℚ × ℚ} {l : List (ℚ × ℚ)} {t : ℚ}

/-- What is left to read after a record, and what is stored, is as before. -/
private theorem Reading.took {file : FileStream} (h : Reading r)
    (hfile : r.file.contents = (a :: l, leftover r.text))
    (hfile' : file.contents = (l, leftover r.text)) : Reading (r.took t file a) := by
  have hsuffix : a :: l <:+ records r.text := by
    have := h.suffix
    rwa [hfile] at this
  have ha : a ∈ records r.text := hsuffix.subset (List.mem_cons_self ..)
  obtain ⟨k, hk⟩ := h.acc
  have hlast : (r.took t file a).lastT = a.1 ∨
      (r.took t file a).lastT = binary64.store (a.1 + offset r.text k) := by
    by_cases hle : a.1 ≤ t
    · exact Or.inr ((if_pos hle).trans (by rw [hk]))
    · exact Or.inl (if_neg hle)
  refine ⟨?_, Or.inl ?_, h.acc, fun hnil => ?_, Or.inr (Or.inl ⟨a, ha, ?_⟩)⟩
  · show file.contents.1 <:+ records r.text
    rw [hfile']
    exact (List.suffix_cons a l).trans hsuffix
  · show file.contents.2 = leftover r.text
    rw [hfile']
  · show ∃ k, binary32.store (file.contents.2.getD (r.took t file a).lastT) = offset r.text k
    rw [show (r.took t file a).file.contents = file.contents from rfl, hfile'] at hnil
    rw [hfile']
    rcases hv : leftover r.text with _ | v
    · -- The record is the last, so its time is what the next offset is made of.
      rw [show l = [] from hnil] at hsuffix
      have hperiod : Trace.period (records r.text) = a.1 :=
        period_of_suffix (List.cons_ne_nil a []) hsuffix
      rcases hlast with hlast | hlast
      · refine ⟨1, ?_⟩
        have hstore : binary64.store (a.1 + 0) = a.1 := by
          rw [add_zero, (records_holds ha).1.store_eq]
        rw [hlast, offset_succ, nextOffset_of_none hv, hperiod]
        exact congrArg binary32.store hstore.symm
      · refine ⟨k + 1, ?_⟩
        rw [hlast, offset_succ, nextOffset_of_none hv, hperiod]
        rfl
    · exact ⟨1, (nextOffset_of_some hv 0).symm⟩
  · exact hlast.imp id fun hlast => ⟨k, hlast⟩

/-- So it is at the start of the next pass. -/
private theorem Reading.restarted (h : Reading r) (hnil : r.file.contents.1 = [])
    (hne : records r.text ≠ []) :
    Reading (r.restarted (binary32.store (r.file.contents.2.getD r.lastT))) :=
  ⟨List.suffix_rfl, Or.inl rfl, h.next hnil, fun hstart => absurd hstart hne, h.compared⟩

private theorem Reading.contents_eq (h : Reading r) (hne : records r.text ≠ []) :
    r.file.contents = (r.file.contents.1, leftover r.text) := by
  rw [← h.left.resolve_right fun hnone => hne hnone.2]

/-- **What holds between two reads is preserved.** -/
theorem Reading.body (h : Reading r) (t : ℚ) : Reading (r.body t).1 := by
  rcases hrest : r.file.contents with ⟨_ | ⟨a, l⟩, w⟩
  · have hnil : r.file.contents.1 = [] := by rw [hrest]
    by_cases hrecords : records r.text = []
    · obtain ⟨file, tp, hfile, hbody⟩ := body_empty hrest hrecords t
      have hnext := h.next hnil
      have hleft := h.left
      rw [hrest] at hnext hleft
      rw [hbody]
      refine ⟨?_, Or.inr ⟨congrArg Prod.snd hfile, hrecords⟩, hnext, fun _ => ?_, ?_⟩
      · show file.contents.1 <:+ _
        rw [hfile]
        exact List.nil_suffix
      · show ∃ k, binary32.store (file.contents.2.getD _) = offset r.text k
        rw [hfile]
        rcases hv : leftover r.text with _ | v
        · exact hnext
        · exact ⟨1, (nextOffset_of_some hv 0).symm⟩
      · show Compared r.text ((leftover r.text).getD (w.getD r.lastT))
        rcases hv : leftover r.text with _ | v
        · have hw : w = none := by
            rcases hleft with hw | hw
            · exact hw.trans hv
            · exact hw.1
          rw [hw]
          exact h.compared
        · exact Or.inr (Or.inr ⟨hrecords, hv⟩)
    · obtain ⟨b, m, hcons⟩ := List.exists_cons_of_ne_nil hrecords
      have hreading := h.restarted hnil hrecords
      rw [hrest] at hreading
      have hstart : (r.restarted (binary32.store (w.getD r.lastT))).file.contents =
          (b :: m, leftover r.text) := by
        rw [← hcons]
        rfl
      obtain ⟨file, hfile, hbody, -⟩ := body_cons hstart t
      rw [body_rewind hrest hrecords, hbody]
      exact hreading.took hstart hfile
  · have hne : records r.text ≠ [] := by
      have hsuffix := h.suffix
      rw [hrest] at hsuffix
      exact List.ne_nil_of_mem (hsuffix.subset (List.mem_cons_self ..))
    have hw : w = leftover r.text := by
      have := h.contents_eq hne
      rw [hrest] at this
      exact (Prod.mk.inj this).2
    subst hw
    obtain ⟨file, hfile, hbody, -⟩ := body_cons hrest t
    rw [hbody]
    exact h.took hrest hfile

end Step

/-! ### Which calls return -/

section Calls

variable {r : TextReader} {t : ℚ}

/-- The passes from one with the offset `k` on reach that with the offset `k + n`. -/
private theorem returns_of_pass {n : ℕ} : ∀ {r : TextReader} {k : ℕ}, records r.text ≠ [] →
    r.file.contents = (records r.text, leftover r.text) → r.tAcc = offset r.text k →
    (∃ a ∈ records r.text, t < binary64.store (a.1 + offset r.text (k + n))) → Returns t r := by
  induction n with
  | zero =>
      intro r k _ hfile hacc ⟨a, ha, ht⟩
      refine returns_of_end hfile fun r' _ _ _ hpass => ?_
      have hle := (hpass a ha).2
      rw [hacc] at hle
      exact absurd ht (not_lt.mpr hle)
  | succ n ih =>
      intro r k hne hfile hacc ht
      refine returns_of_end hfile fun r' htext hfile' hlast _ => ?_
      refine returns_of_restarted hfile' (htext ▸ hne) ?_
      have hnext : binary32.store ((leftover r.text).getD r'.lastT) = offset r.text (k + 1) := by
        rw [offset_succ, ← hacc, nextOffset_eq, hlast, getLastD_map_store hne]
      rw [hnext]
      refine ih (k := k + 1) (htext ▸ hne) ?_ (by rw [← htext]; rfl) ?_
      · rw [show (r'.restarted _).text = r'.text from rfl, ← contents_start]
        rfl
      · rw [show (r'.restarted _).text = r'.text from rfl, htext, Nat.add_right_comm]
        exact ht

/-- A pass from the start meets every record. -/
private theorem Reading.returns_of_record {a : ℚ × ℚ} (h : Reading r) (ha : a ∈ records r.text)
    (ht : t < a.1) : Returns t r := by
  have hne : records r.text ≠ [] := List.ne_nil_of_mem ha
  refine returns_of_end (h.contents_eq hne) fun r' htext hfile' _ _ => ?_
  refine returns_of_restarted hfile' (htext ▸ hne) ?_
  refine returns_of_end (l := records r.text) (w := leftover r.text) ?_ fun r'' _ _ _ hpass => ?_
  · rw [← htext]
    rfl
  · exact absurd ht (not_lt.mpr (hpass a ha).1)

/-- The time the pass ends with makes an offset of the text. -/
private theorem Reading.next_of_end {r' : TextReader} (h : Reading r) (hne : records r.text ≠ [])
    (hlast : r'.lastT =
      (r.file.contents.1.map fun a => binary64.store (a.1 + r.tAcc)).getLastD r.lastT) :
    ∃ k, binary32.store ((leftover r.text).getD r'.lastT) = offset r.text k := by
  by_cases hnil : r.file.contents.1 = []
  · obtain ⟨k, hk⟩ := h.next hnil
    rw [h.contents_eq hne] at hk
    rw [hnil] at hlast
    exact ⟨k, hlast ▸ hk⟩
  · obtain ⟨k, hk⟩ := h.acc
    refine ⟨k + 1, ?_⟩
    rw [hlast, getLastD_map_store hnil, ← period_of_suffix hnil h.suffix, hk, ← nextOffset_eq,
      offset_succ]

/-- **A call that comes before a time of a later pass returns.** -/
private theorem Reading.returns_of_offset {a : ℚ × ℚ} {k : ℕ} (h : Reading r)
    (ha : a ∈ records r.text) (ht : t < binary64.store (a.1 + offset r.text k)) : Returns t r := by
  rcases offset_mono_or_nonpos r.text with hmono | hnonpos
  · have hne : records r.text ≠ [] := List.ne_nil_of_mem ha
    refine returns_of_end (h.contents_eq hne) fun r' htext hfile' hlast _ => ?_
    refine returns_of_restarted hfile' (htext ▸ hne) ?_
    obtain ⟨j, hj⟩ := h.next_of_end hne hlast
    rw [hj]
    refine returns_of_pass (k := j) (n := k) (htext ▸ hne) ?_ (by rw [← htext]; rfl) ?_
    · rw [show (r'.restarted _).text = r'.text from rfl, ← contents_start]
      rfl
    · rw [show (r'.restarted _).text = r'.text from rfl, htext]
      refine ⟨a, ha, ht.trans_le (Format.store_mono ?_)⟩
      have hle : offset r.text k ≤ offset r.text (j + k) := hmono (Nat.le_add_left k j)
      linarith
  · refine h.returns_of_record ha (ht.trans_le ?_)
    have hle : binary64.store (a.1 + offset r.text k) ≤ binary64.store a.1 :=
      Format.store_mono (by linarith [hnonpos k])
    rwa [(records_holds ha).1.store_eq] at hle

/-- The loop does not end when all that is compared is at most the time of the call. -/
private theorem Reading.loop_none (hno : ¬ Passes r.text t) (fuel : ℕ) :
    ∀ (r' : TextReader) (total : ℚ), Reading r' → r'.text = r.text →
    loop t fuel r' total = none := by
  induction fuel with
  | zero => intro _ _ _ _; rfl
  | succ fuel ih =>
      intro r' total h htext
      have hle : r'.lastT ≤ t := by
        by_contra hlt
        exact hno ⟨r'.lastT, htext ▸ h.compared, not_le.mp hlt⟩
      rw [loop, if_pos hle]
      exact ih _ _ (h.body t) ((body_text r' t).trans htext)

/-- **When a call returns.** -/
theorem Reading.returns_iff (h : Reading r) (hpos : 0 ≤ r.lastT) :
    Returns t r ↔ Passes r.text t := by
  constructor
  · intro ⟨fuel, hfuel⟩
    by_contra hno
    rw [Reading.loop_none hno fuel r 0 h rfl] at hfuel
    cases hfuel
  · rintro ⟨x, hx, ht⟩
    rcases hx with rfl | ⟨a, ha, rfl | ⟨k, rfl⟩⟩ | ⟨hnil, hv⟩
    · exact returns_of_lt (ht.trans_le hpos)
    · exact h.returns_of_record ha ht
    · exact h.returns_of_offset ha ht
    · -- Without records the failed read stores the time that is past the call.
      have hrest : r.file.contents = ([], r.file.contents.2) := by
        have hsuffix := h.suffix
        rw [hnil, List.suffix_nil] at hsuffix
        rw [← hsuffix]
      obtain ⟨file, tp, -, hbody⟩ := body_empty hrest hnil t
      refine returns_of_body (returns_of_lt ?_)
      rw [hbody, hv]
      exact ht

private theorem loop_mono {fuel fuel' : ℕ} (hle : fuel ≤ fuel') : ∀ {r : TextReader} {total : ℚ}
    {x : TextReader × ℚ}, loop t fuel r total = some x → loop t fuel' r total = some x := by
  induction fuel generalizing fuel' with
  | zero => intro _ _ _ h; cases h
  | succ fuel ih =>
      intro r total x h
      cases fuel' with
      | zero => exact absurd hle (Nat.not_succ_le_zero _)
      | succ fuel' =>
          rw [loop] at h ⊢
          by_cases hr : r.lastT ≤ t
          · rw [if_pos hr] at h ⊢
            exact ih (Nat.le_of_succ_le_succ hle) h
          · rw [if_neg hr] at h ⊢
            exact h

/-- What the loop leaves. -/
private theorem loop_reading (fuel : ℕ) : ∀ {r r' : TextReader} {total x : ℚ}, Reading r →
    loop t fuel r total = some (r', x) → Reading r' ∧ r'.text = r.text ∧ t < r'.lastT := by
  induction fuel with
  | zero => intro _ _ _ _ _ h; cases h
  | succ fuel ih =>
      intro r r' total x hreading h
      rw [loop] at h
      by_cases hr : r.lastT ≤ t
      · rw [if_pos hr] at h
        obtain ⟨hreading', htext, hlt⟩ := ih (hreading.body t) h
        exact ⟨hreading', htext.trans (body_text r t), hlt⟩
      · rw [if_neg hr] at h
        obtain ⟨rfl, -⟩ := Prod.mk.inj (Option.some.inj h)
        exact ⟨hreading, rfl, not_le.mp hr⟩

/-- What holds between two calls. -/
structure Settled (r : TextReader) : Prop where
  reading : Reading r
  nonneg : 0 ≤ r.lastT

/-- What a call leaves. -/
private theorem Settled.generate {fuel : ℕ} {x : TextReader × ℚ} (h : Settled r)
    (hcall : r.generate fuel t = some x) : Settled x.1 ∧ x.1.text = r.text := by
  obtain ⟨⟨r', y⟩, hloop, rfl⟩ := Option.map_eq_some_iff.mp hcall
  obtain ⟨hreading, htext, hlt⟩ := loop_reading fuel h.reading hloop
  refine ⟨⟨hreading, ?_⟩, htext⟩
  show 0 ≤ r'.lastT
  by_cases hr : r.lastT ≤ t
  · exact (h.nonneg.trans hr).trans hlt.le
  · -- A call before `last_t` reads nothing.
    cases fuel with
    | zero => cases hloop
    | succ fuel =>
        rw [loop, if_neg hr] at hloop
        obtain ⟨rfl, -⟩ := Prod.mk.inj (Option.some.inj hloop)
        exact h.nonneg

private theorem generate_mono {fuel fuel' : ℕ} (hle : fuel ≤ fuel') {x : TextReader × ℚ}
    (h : r.generate fuel t = some x) : r.generate fuel' t = some x := by
  obtain ⟨y, hloop, rfl⟩ := Option.map_eq_some_iff.mp h
  rw [TextReader.generate, loop_mono hle hloop]
  rfl

private theorem Settled.generate_iff (h : Settled r) :
    (∃ fuel, (r.generate fuel t).isSome) ↔ Passes r.text t := by
  rw [← h.reading.returns_iff h.nonneg]
  refine exists_congr fun fuel => ?_
  rw [TextReader.generate, Option.isSome_map, loop_isSome fuel r _ 0]

end Calls

end TextReader

namespace TextGenerator

open TextReader

/-! ### Sequences of calls -/

/-- The reader of one direction. -/
def reader (g : TextGenerator) : Direction → TextReader
  | .ul => g.ul
  | .dl => g.dl

/-- The generator with another reader in one direction. -/
private def put (g : TextGenerator) : Direction → TextReader → TextGenerator
  | .ul, r => { g with ul := r }
  | .dl, r => { g with dl := r }

section Calls

variable {g : TextGenerator} {fuel : ℕ}

private theorem generate_eq (tx : Direction) (t : ℚ) : g.generate fuel tx t =
    ((g.reader tx).generate fuel (binary64.store (t - g.delay))).map fun x =>
      (g.put tx x.1, x.2) := by
  cases tx <;> rfl

private theorem reader_put (tx d : Direction) (r : TextReader) :
    (g.put tx r).reader d = if d = tx then r else g.reader d := by
  cases tx <;> cases d <;> rfl

private theorem put_delay (tx : Direction) (r : TextReader) : (g.put tx r).delay = g.delay := by
  cases tx <;> rfl

/-- Both readers are between two calls on their texts. -/
private def Ready (texts : Direction → List Char) (g : TextGenerator) : Prop :=
  ∀ tx, TextReader.Settled (g.reader tx) ∧ (g.reader tx).text = texts tx

private theorem Ready.generate {texts : Direction → List Char} {tx : Direction} {t : ℚ}
    {x : TextGenerator × ℚ} (h : Ready texts g) (hcall : g.generate fuel tx t = some x) :
    Ready texts x.1 ∧ x.1.delay = g.delay := by
  rw [generate_eq] at hcall
  obtain ⟨y, hy, rfl⟩ := Option.map_eq_some_iff.mp hcall
  obtain ⟨hsettled, htext⟩ := (h tx).1.generate hy
  refine ⟨fun d => ?_, put_delay tx y.1⟩
  rw [reader_put]
  by_cases hd : d = tx
  · rw [if_pos hd, hd]
    exact ⟨hsettled, htext.trans (h tx).2⟩
  · rw [if_neg hd]
    exact h d

private theorem calls_mono {fuel' : ℕ} (hle : fuel ≤ fuel') : ∀ {g : TextGenerator}
    {cs : List (Direction × ℚ)} {x : TextGenerator × List ℚ},
    g.calls fuel cs = some x → g.calls fuel' cs = some x := by
  intro g cs
  induction cs generalizing g with
  | nil => intro x h; exact h
  | cons c rest ih =>
      intro x h
      obtain ⟨y, hy, hrest⟩ := Option.bind_eq_some_iff.mp h
      obtain ⟨z, hz, rfl⟩ := Option.map_eq_some_iff.mp hrest
      have hcall : g.generate fuel' c.1 c.2 = some y := by
        rw [generate_eq] at hy ⊢
        obtain ⟨w, hw, rfl⟩ := Option.map_eq_some_iff.mp hy
        rw [generate_mono hle hw]
        rfl
      rw [calls, hcall, Option.bind_some, ih hz]
      rfl

private theorem calls_iff {texts : Direction → List Char} : ∀ {g : TextGenerator}
    {cs : List (Direction × ℚ)}, Ready texts g →
    ((∃ fuel, (g.calls fuel cs).isSome) ↔
      ∀ c ∈ cs, Passes (texts c.1) (binary64.store (c.2 - g.delay))) := by
  intro g cs
  induction cs generalizing g with
  | nil => exact fun _ => ⟨fun _ c hc => absurd hc List.not_mem_nil, fun _ => ⟨0, rfl⟩⟩
  | cons c rest ih =>
      intro h
      obtain ⟨tx, t⟩ := c
      have hfirst := (h tx).1.generate_iff (t := binary64.store (t - g.delay))
      rw [(h tx).2] at hfirst
      rw [List.forall_mem_cons, ← hfirst]
      constructor
      · intro ⟨fuel, hsome⟩
        obtain ⟨x, hx⟩ := Option.isSome_iff_exists.mp hsome
        obtain ⟨y, hy, hrest⟩ := Option.bind_eq_some_iff.mp hx
        obtain ⟨z, hz, -⟩ := Option.map_eq_some_iff.mp hrest
        obtain ⟨hready, hdelay⟩ := h.generate hy
        refine ⟨⟨fuel, ?_⟩, ?_⟩
        · rw [generate_eq] at hy
          obtain ⟨w, hw, -⟩ := Option.map_eq_some_iff.mp hy
          rw [hw]
          rfl
        · rw [← hdelay]
          exact (ih hready).mp ⟨fuel, by rw [hz]; rfl⟩
      · intro ⟨⟨fuel, hsome⟩, hrest⟩
        obtain ⟨w, hw⟩ := Option.isSome_iff_exists.mp hsome
        have hcall : g.generate fuel tx t = some (g.put tx w.1, w.2) := by
          rw [generate_eq, hw]
          rfl
        obtain ⟨hready, hdelay⟩ := h.generate hcall
        obtain ⟨fuel', hsome'⟩ := (ih hready).mpr (by rw [hdelay]; exact hrest)
        obtain ⟨z, hz⟩ := Option.isSome_iff_exists.mp hsome'
        -- The larger of the two bounds is enough for both.
        refine ⟨max fuel fuel', ?_⟩
        have hcall' : g.generate (max fuel fuel') tx t = some (g.put tx w.1, w.2) := by
          rw [generate_eq, generate_mono (le_max_left ..) hw]
          rfl
        rw [calls, hcall', Option.bind_some, calls_mono (le_max_right ..) hz]
        rfl

end Calls

/-- The texts of the files, by direction. -/
def texts (ulText dlText : List Char) : Direction → List Char
  | .ul => ulText
  | .dl => dlText

/-! ### Texts that are traces -/

/-- The generator of two texts is where that of their records is. -/
private structure FollowsTraces (g : TextGenerator) (h : TrafficGenerator) : Prop where
  ul : Follows g.ul h.ul
  dl : Follows g.dl h.dl
  ulTrace : records g.ul.text = h.ulTrace
  dlTrace : records g.dl.text = h.dlTrace
  left : leftover g.ul.text = none ∧ leftover g.dl.text = none
  delay : g.delay = h.delay

private theorem FollowsTraces.generate {g : TextGenerator} {h : TrafficGenerator} {fuel : ℕ}
    {tx : Direction} {t : ℚ} {x : TrafficGenerator × ℚ} (hg : FollowsTraces g h)
    (hne : h.ulTrace ≠ [] ∧ h.dlTrace ≠ []) (hcall : h.generate fuel tx t = some x) :
    ∃ g', g.generate fuel tx t = some (g', x.2) ∧ FollowsTraces g' x.1 ∧
      x.1.ulTrace = h.ulTrace ∧ x.1.dlTrace = h.dlTrace := by
  cases tx with
  | ul =>
      obtain ⟨y, hy, rfl⟩ := Option.map_eq_some_iff.mp hcall
      rw [← hg.ulTrace, ← hg.delay] at hy
      obtain ⟨r, hr, hfollows, htext⟩ :=
        hg.ul.generate hg.left.1 (by rw [hg.ulTrace]; exact hne.1) hy
      refine ⟨{ g with ul := r }, ?_, ?_, rfl, rfl⟩
      · rw [TextGenerator.generate, generateUl, hr]
        rfl
      · exact ⟨hfollows, hg.dl, by rw [← hg.ulTrace, htext], hg.dlTrace,
          by rw [htext]; exact hg.left, hg.delay⟩
  | dl =>
      obtain ⟨y, hy, rfl⟩ := Option.map_eq_some_iff.mp hcall
      rw [← hg.dlTrace, ← hg.delay] at hy
      obtain ⟨r, hr, hfollows, htext⟩ :=
        hg.dl.generate hg.left.2 (by rw [hg.dlTrace]; exact hne.2) hy
      refine ⟨{ g with dl := r }, ?_, ?_, rfl, rfl⟩
      · rw [TextGenerator.generate, generateDl, hr]
        rfl
      · exact ⟨hg.ul, hfollows, hg.ulTrace, by rw [← hg.dlTrace, htext],
          by rw [htext]; exact hg.left, hg.delay⟩

/-- **On texts that are traces the calls return what the calls on the traces do.** -/
theorem calls_of_traces {fuel : ℕ} : ∀ {g : TextGenerator} {h : TrafficGenerator}
    {cs : List (Direction × ℚ)} {x : TrafficGenerator × List ℚ}, FollowsTraces g h →
    (h.ulTrace ≠ [] ∧ h.dlTrace ≠ []) → h.calls fuel cs = some x →
    ∃ g', g.calls fuel cs = some (g', x.2) := by
  intro g h cs
  induction cs generalizing g h with
  | nil => intro x _ _ hcalls; exact ⟨g, congrArg some (by rw [← Option.some.inj hcalls])⟩
  | cons c rest ih =>
      intro x hg hne hcalls
      obtain ⟨tx, t⟩ := c
      obtain ⟨y, hy, hrest⟩ := Option.bind_eq_some_iff.mp hcalls
      obtain ⟨z, hz, rfl⟩ := Option.map_eq_some_iff.mp hrest
      obtain ⟨g₁, hg₁, hfollows, hul, hdl⟩ := hg.generate hne hy
      obtain ⟨g₂, hg₂⟩ := ih hfollows (by rw [hul, hdl]; exact hne) hz
      refine ⟨g₂, ?_⟩
      rw [calls, hg₁, Option.bind_some, hg₂]
      rfl

/-- The generator of two texts that are traces starts where that of the traces does. -/
theorem calls_constructed {ulText dlText : List Char} {delay : ℚ} {fuel : ℕ}
    {cs : List (Direction × ℚ)} {x : TrafficGenerator × List ℚ}
    (hleft : leftover ulText = none ∧ leftover dlText = none)
    (hne : records ulText ≠ [] ∧ records dlText ≠ [])
    (hcalls : ({ ulTrace := records ulText, dlTrace := records dlText, delay := delay } :
      TrafficGenerator).calls fuel cs = some x) :
    ∃ g, (constructed ulText dlText delay).calls fuel cs = some (g, x.2) := by
  refine calls_of_traces ⟨⟨?_, rfl, rfl, rfl⟩, ⟨?_, rfl, rfl, rfl⟩, rfl, rfl, hleft, rfl⟩ hne hcalls
  · show FileStream.contents { rest := ulText } = (records ulText, none)
    rw [← hleft.1]
    rfl
  · show FileStream.contents { rest := dlText } = (records dlText, none)
    rw [← hleft.2]
    rfl

/-! ### The verdict -/

/-- A generator starts between two calls. -/
private theorem ready_constructed (ulText dlText : List Char) (delay : ℚ) :
    Ready (texts ulText dlText) (constructed ulText dlText delay) := by
  intro tx
  cases tx with
  | ul => exact ⟨⟨Reading.start _, le_rfl⟩, rfl⟩
  | dl => exact ⟨⟨Reading.start _, le_rfl⟩, rfl⟩

/-- **Which sequences of calls return.**  For every two texts, every delay and every sequence of
calls: all of them return exactly when each comes before a time that reading its text
compares with it. -/
theorem calls_return_iff (ulText dlText : List Char) (delay : ℚ) (cs : List (Direction × ℚ)) :
    (∃ fuel, ((constructed ulText dlText delay).calls fuel cs).isSome) ↔
      ∀ c ∈ cs, Passes (texts ulText dlText c.1) (binary64.store (c.2 - delay)) :=
  calls_iff (ready_constructed ulText dlText delay)

/-- An empty file, one whose only record is at 0, or at a time that is rounded to 0, and one
whose offset stays at 2048 seconds. -/
theorem calls_never_return :
    (¬ ∃ fuel, ((constructed [] [] 0).calls fuel [(.ul, 0)]).isSome) ∧
      (¬ ∃ fuel, ((constructed "0 100\n".toList "0 100\n".toList 0).calls fuel
        [(.ul, 0)]).isSome) ∧
      (¬ ∃ fuel, ((constructed "1e-400 100\n".toList [] 0).calls fuel [(.ul, 0)]).isSome) ∧
      ¬ ∃ fuel, ((constructed "0.0001 100\n".toList [] 0).calls fuel [(.ul, 2049)]).isSome := by
  have hstuck : ∀ (text other : List Char) (t : ℚ), ¬ Passes text (binary64.store (t - 0)) →
      ¬ ∃ fuel, ((constructed text other 0).calls fuel [(.ul, t)]).isSome := by
    intro text other t hpasses hreturns
    have hcalls := (calls_iff (ready_constructed text other 0)).mp hreturns
    exact hpasses (hcalls _ (List.mem_singleton_self _))
  refine ⟨hstuck _ _ _ ?_, hstuck _ _ _ ?_, hstuck _ _ _ ?_, hstuck _ _ _ ?_⟩
  · exact not_passes (d := 0) (by decide +kernel) le_rfl (by decide +kernel) (by decide +kernel)
      (by decide +kernel)
  · exact not_passes (d := 0) (by decide +kernel) le_rfl (by decide +kernel) (by decide +kernel)
      (by decide +kernel)
  · exact not_passes (d := 0) (by decide +kernel) le_rfl (by decide +kernel) (by decide +kernel)
      (by decide +kernel)
  · exact not_passes (d := 2048) (by decide +kernel) (by norm_num) (by decide +kernel)
      (by decide +kernel) (by decide +kernel)

end TextGenerator

end NetworkEmulator
