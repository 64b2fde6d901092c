/-
The symbols of a TDD pattern.

A handler that has read `k` symbols stands at the symbol `k` of the endless repetition of
its frame (`At`), however long its calls are: each pass of the loop of `get_syms` reads the
next one.  So the answers of a run of calls add up to the symbols of its direction that it
has passed, and two handlers of one frame, which stand at the same symbol, never count the
same one.

What the frame is depends on the table.  It is declared with one row more than it has, and
the row that is missing is a transition slot of no symbols.
-/
import NetworkEmulator.Library.Cycles
import NetworkEmulator.Model.TddHandler

namespace NetworkEmulator

/-- The symbol that a direction counts. -/
def Direction.sym : Direction → Sym
  | .dl => .dl
  | .ul => .ul

namespace TddHandler

/-- The frame with a given transition slot. -/
def frame (nDlSlots nUlSlots : ℕ) (slot : List Sym) : List Sym :=
  List.replicate (nDlSlots * 14) .dl ++ slot ++ List.replicate (nUlSlots * 14) .ul

/-- The transition slot that is configured. -/
def configuredSlot (transitionC : ℤ) : List Sym :=
  transitionSlot (tdd5gConfiguration (checkTransition transitionC).toNat)

/-- The handler counts the symbol `j` of its next call: one more symbol of it is one more
in the answer. -/
def Counts (h : TddHandler) (j : ℕ) : Prop :=
  ∃ before, (h.setSyms j).getSyms.map Prod.fst = some before ∧
    (h.setSyms (j + 1 : ℕ)).getSyms.map Prod.fst = some (before + 1)

/-- What the handlers of a configuration are to do, with `slot` for its transition slot. -/
structure Accounts (nDlSlots nUlSlots : ℕ) (transitionC : ℤ) (slot : List Sym) : Prop where
  full : slot.length = 14
  total : ∀ (tx : Direction) (unset : ℤ) (syms n : ℕ), 1 ≤ syms → ∃ answers h',
    ((make ⟨nDlSlots, nUlSlots, transitionC⟩ tx unset).setSyms syms).calls n
      = some (answers, h') ∧
    answers.sum = (Cycles.first (frame nDlSlots nUlSlots slot) (n * syms)).count tx.sym
  apart : ∀ (unset : ℤ) (syms n : ℕ) (dl ul : List ℕ × TddHandler), 1 ≤ syms →
    ((make ⟨nDlSlots, nUlSlots, transitionC⟩ .dl unset).setSyms syms).calls n = some dl →
    ((make ⟨nDlSlots, nUlSlots, transitionC⟩ .ul unset).setSyms syms).calls n = some ul →
    ∀ j < syms, ¬(dl.2.Counts j ∧ ul.2.Counts j)

/-! ### A handler in its frame -/

/-- The handler has read `k` symbols. -/
structure At (h : TddHandler) (k : ℕ) : Prop where
  pos : 0 < h.tddScheme.length
  index : h.cIndex % h.tddScheme.length = k % h.tddScheme.length
  le : h.cIndex ≤ h.tddScheme.length

/-- The index that is read: the lazy return to the start makes it the remainder. -/
theorem wrap_eq {len index k : ℕ} (hle : index ≤ len)
    (hk : index % len = k % len) : (if len ≤ index then 0 else index) = k % len := by
  rw [← hk]
  by_cases h : len ≤ index
  · rw [if_pos h, show index = len by omega, Nat.mod_self]
  · rw [if_neg h, Nat.mod_eq_of_lt (by omega)]

/-- One symbol of the loop adds one exactly when it is of the direction. -/
theorem count_step (tx : Direction) (sym : Sym) (out : ℕ) :
    (if sym = .dl ∧ tx = .dl then (if sym = .ul ∧ tx = .ul then out + 1 else out) + 1
      else if sym = .ul ∧ tx = .ul then out + 1 else out) = out + [sym].count tx.sym := by
  cases tx <;> cases sym <;> rfl

/-- **The loop of `get_syms`** passes the next symbols and counts those of its direction. -/
theorem getSymsLoop_at {h : TddHandler} (hpos : 0 < h.tddScheme.length) (n : ℕ) :
    ∀ {index k : ℕ} (out : ℕ), index ≤ h.tddScheme.length →
      index % h.tddScheme.length = k % h.tddScheme.length →
      ∃ index' out', h.getSymsLoop n index out = some (index', out') ∧
        index' ≤ h.tddScheme.length ∧
        index' % h.tddScheme.length = (k + n) % h.tddScheme.length ∧
        out' + (Cycles.first h.tddScheme k).count h.tx.sym
          = out + (Cycles.first h.tddScheme (k + n)).count h.tx.sym := by
  induction n with
  | zero => intro index k out hle hk; exact ⟨index, out, rfl, hle, hk, rfl⟩
  | succ n ih =>
      intro index k out hle hk
      have hlt : k % h.tddScheme.length < h.tddScheme.length := Nat.mod_lt k hpos
      have hnext : (k % h.tddScheme.length + 1) % h.tddScheme.length
          = (k + 1) % h.tddScheme.length := Nat.mod_add_mod ..
      obtain ⟨index', out', hloop, hle', hk', hout⟩ :=
        @ih (k % h.tddScheme.length + 1) (k + 1)
          (out + [h.tddScheme[k % h.tddScheme.length]].count h.tx.sym) hlt hnext
      have hread : h.tddScheme[k % h.tddScheme.length]?
          = some h.tddScheme[k % h.tddScheme.length] := List.getElem?_eq_getElem hlt
      refine ⟨index', out', ?_, hle', by rw [hk']; congr 1; omega, ?_⟩
      · simp only [getSymsLoop, wrap_eq hle hk, hread, count_step]
        exact hloop
      · rw [Cycles.first_succ hlt, List.count_append] at hout
        rw [show k + (n + 1) = k + 1 + n by omega]
        omega

theorem At.getSyms {h : TddHandler} {k : ℕ} (hat : h.At k) :
    ∃ symsOut h', h.getSyms = some (symsOut, h') ∧ h'.At (k + h.syms.toNat) ∧
      h'.tddScheme = h.tddScheme ∧ h'.tx = h.tx ∧ h'.syms = h.syms ∧
      symsOut + (Cycles.first h.tddScheme k).count h.tx.sym
        = (Cycles.first h.tddScheme (k + h.syms.toNat)).count h.tx.sym := by
  obtain ⟨index', out', hloop, hle, hk, hout⟩ :=
    getSymsLoop_at hat.pos h.syms.toNat (k := k) 0 hat.le hat.index
  refine ⟨out', { h with cIndex := index' }, ?_, ⟨hat.pos, hk, hle⟩, rfl, rfl, rfl, by omega⟩
  rw [TddHandler.getSyms, hloop]
  rfl

/-- **A run of calls** answers with the symbols it has passed. -/
theorem At.calls (n : ℕ) :
    ∀ {h : TddHandler} {k : ℕ}, h.At k → ∃ answers h', h.calls n = some (answers, h') ∧
      h'.At (k + n * h.syms.toNat) ∧ h'.tddScheme = h.tddScheme ∧ h'.tx = h.tx ∧
      answers.sum + (Cycles.first h.tddScheme k).count h.tx.sym
        = (Cycles.first h.tddScheme (k + n * h.syms.toNat)).count h.tx.sym := by
  induction n with
  | zero =>
      intro h k hat
      refine ⟨[], h, rfl, ?_, rfl, rfl, ?_⟩
      · rwa [Nat.zero_mul]
      · rw [Nat.zero_mul, List.sum_nil, Nat.zero_add, Nat.add_zero]
  | succ n ih =>
      intro h k hat
      obtain ⟨symsOut, h₁, hget, hat₁, hscheme, htx, hsyms, hcount⟩ := hat.getSyms
      obtain ⟨answers, h', hcalls, hat', hscheme', htx', hsum⟩ := ih hat₁
      have hplace : k + h.syms.toNat + n * h₁.syms.toNat = k + (n + 1) * h.syms.toNat := by
        rw [hsyms, Nat.succ_mul]
        omega
      rw [hplace] at hat' hsum
      rw [hscheme, htx] at hsum
      refine ⟨symsOut :: answers, h', ?_, hat', hscheme'.trans hscheme, htx'.trans htx, ?_⟩
      · simp only [TddHandler.calls, hget, hcalls]
        rfl
      · rw [List.sum_cons]
        omega

/-- A handler counts the symbols of its direction. -/
theorem At.counts_iff {h : TddHandler} {k : ℕ} (hat : h.At k) (j : ℕ) :
    h.Counts j ↔ h.tddScheme[(k + j) % h.tddScheme.length]? = some h.tx.sym := by
  have hat' (n : ℕ) : (h.setSyms n).At k := ⟨hat.pos, hat.index, hat.le⟩
  obtain ⟨before, h₁, hget, -, -, -, -, hcount⟩ := (hat' j).getSyms
  obtain ⟨after, h₂, hget', -, -, -, -, hcount'⟩ := (hat' (j + 1)).getSyms
  have hlt := Nat.mod_lt (k + j) hat.pos
  have hone : after = before + [h.tddScheme[(k + j) % h.tddScheme.length]].count h.tx.sym := by
    have hsucc := Cycles.first_succ (Nat.mod_lt (k + j) hat.pos)
    change before + (Cycles.first h.tddScheme k).count h.tx.sym
      = (Cycles.first h.tddScheme (k + j)).count h.tx.sym at hcount
    change after + (Cycles.first h.tddScheme k).count h.tx.sym
      = (Cycles.first h.tddScheme (k + j + 1)).count h.tx.sym at hcount'
    rw [hsucc, List.count_append] at hcount'
    omega
  have hiff : h.Counts j ↔ after = before + 1 := by
    simp only [Counts, hget, hget', Option.map_some, Option.some.injEq]
    constructor
    · rintro ⟨x, rfl, rfl⟩
      rfl
    · intro h
      exact ⟨before, rfl, h⟩
  rw [hiff, hone, List.getElem?_eq_getElem hlt, Option.some.injEq, List.count_singleton]
  by_cases heq : h.tddScheme[(k + j) % h.tddScheme.length] = h.tx.sym
  · simp [heq]
  · simp [heq]

/-! ### The frame of a configuration -/

/-- Every row that is written makes a full slot. -/
theorem transitionSlot_full : ∀ row ∈ tddRows, (transitionSlot row).length = 14 := by decide

/-- **The slot is full unless the table ends before it.** -/
theorem configuredSlot_full_iff (transitionC : ℤ) :
    (configuredSlot transitionC).length = 14 ↔ transitionC ≠ 61 := by
  have hrows : tddRows.length = 61 := rfl
  constructor
  · rintro hfull rfl
    exact absurd hfull (by decide)
  · intro hne
    have hlt : (checkTransition transitionC).toNat < tddRows.length := by
      rw [hrows, checkTransition, nConfig, fallbackConfig]
      split <;> omega
    rw [configuredSlot, tdd5gConfiguration, List.getD_eq_getElem _ _ hlt]
    exact transitionSlot_full _ (List.getElem_mem hlt)

theorem make_scheme (nDlSlots nUlSlots : ℕ) (transitionC : ℤ) (tx : Direction) (unset : ℤ) :
    (make ⟨nDlSlots, nUlSlots, transitionC⟩ tx unset).tddScheme
      = frame nDlSlots nUlSlots (configuredSlot transitionC) := rfl

theorem make_at {nDlSlots nUlSlots : ℕ} {transitionC : ℤ} (tx : Direction) (unset : ℤ) (syms : ℕ)
    (hfull : (configuredSlot transitionC).length = 14) :
    ((make ⟨nDlSlots, nUlSlots, transitionC⟩ tx unset).setSyms syms).At 0 := by
  refine ⟨?_, rfl, Nat.zero_le _⟩
  show 0 < (make ⟨nDlSlots, nUlSlots, transitionC⟩ tx unset).tddScheme.length
  rw [make_scheme, frame, List.length_append, List.length_append, hfull]
  omega

/-- **When the symbols of a TDD pattern are accounted for.**  With any numbers of slots, any
length of the calls and any number of them, the answers of a direction add up to its symbols
in the repeated frame with a full transition slot as configured, and no symbol is counted in
both directions, unless the configuration is the one the table has no row for. -/
theorem symbols_accounted_iff (nDlSlots nUlSlots : ℕ) (transitionC : ℤ) :
    Accounts nDlSlots nUlSlots transitionC (configuredSlot transitionC) ↔ transitionC ≠ 61 := by
  rw [← configuredSlot_full_iff]
  refine ⟨fun h => h.full, fun hfull => ⟨hfull, ?_, ?_⟩⟩
  · intro tx unset syms n _
    obtain ⟨answers, h', hcalls, -, -, -, hsum⟩ := (make_at tx unset syms hfull).calls n
    refine ⟨answers, h', hcalls, ?_⟩
    rw [Cycles.first_zero, List.count_nil, Nat.add_zero, Nat.zero_add] at hsum
    exact hsum
  · intro unset syms n dl ul _ hdl hul j _ ⟨hcdl, hcul⟩
    obtain ⟨adl, dl', hcalls, hatdl, hsdl, htdl, -⟩ := (make_at .dl unset syms hfull).calls n
    obtain ⟨aul, ul', hcalls', hatul, hsul, htul, -⟩ := (make_at .ul unset syms hfull).calls n
    obtain rfl := Option.some.inj (hdl.symm.trans hcalls)
    obtain rfl := Option.some.inj (hul.symm.trans hcalls')
    rw [hatdl.counts_iff, htdl, hsdl] at hcdl
    rw [hatul.counts_iff, htul, hsul] at hcul
    cases Option.some.inj (hcdl.symm.trans hcul)

/-- One slot each way and configuration 61: the frame has no transition slot.  The third call
of the downlink already reads the next frame, so no full slot explains the answers. -/
theorem symbols_lost : (configuredSlot 61).length = 0 ∧
    ∀ slot : List Sym, ¬Accounts 1 1 61 slot := by
  refine ⟨by decide, fun slot h => ?_⟩
  have hsum (n total : ℕ) (hn : n * 14 ≤ 42)
      (hrun : (((make ⟨1, 1, 61⟩ .dl 0).setSyms 14).calls n).map (fun r => r.1.sum) = some total) :
      total = ((frame 1 1 slot).take (n * 14)).count .dl := by
    obtain ⟨answers, h', hcalls, hsum⟩ := h.total .dl 0 14 n (by omega)
    have hlen : (frame 1 1 slot).length = 42 := by simp [frame, h.full]
    rw [Cycles.first_of_le (by omega)] at hsum
    obtain ⟨r, hr, rfl⟩ := Option.map_eq_some_iff.mp hrun
    obtain rfl := Option.some.inj (hr.symm.trans hcalls)
    exact hsum
  have htwo := hsum 2 14 (by omega) (by decide)
  have hthree := hsum 3 28 (by omega) (by decide)
  have hnone : slot.count .dl = 0 := by
    simpa [frame, List.take_append, h.full] using htwo
  have hall : slot.count .dl = 14 := by
    have hle : slot.take 28 = slot := List.take_of_length_le (by rw [h.full]; omega)
    simpa [frame, List.take_append, h.full, List.count_replicate, hle] using hthree.symm
  omega

end TddHandler

end NetworkEmulator
