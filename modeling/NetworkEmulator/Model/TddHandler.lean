/-
The TDD pattern of `src/mac_layer/tdd_handler.cpp`.

A handler belongs to one direction.  It lays the symbols of a frame out once, and then each
call of `getSyms` reads the next `syms` of them and answers how many are of its direction.
The index goes back to the start of the frame only when the next symbol is read.

`none` is the read of a frame that has no symbols.
-/
import NetworkEmulator.Model.ResourceGrid

namespace NetworkEmulator

/-- `UL_SYM`, `DL_SYM` and `O_SYM`. -/
inductive Sym where
  | ul
  | dl
  | o
  deriving DecidableEq, Repr

/-- `N_5G_SYMS`. -/
def n5gSyms : ℕ := 14

/-- `N_CONFIG`. -/
def nConfig : ℤ := 62

/-- `FALLBACK_CONFIG`. -/
def fallbackConfig : ℤ := 45

/-- `TDD_ORDER`. -/
def tddOrder : List Sym := [.dl, .o, .ul]

/-- The rows written in `TDD_5G_CONFIGURATION`. -/
def tddRows : List (List ℕ) :=
  [[0, 0, 14], [0, 14, 0], [13, 1, 0], [12, 2, 0], [11, 3, 0], [10, 4, 0], [9, 5, 0],
   [0, 13, 1], [0, 12, 2], [0, 1, 13], [0, 2, 12], [0, 3, 11], [0, 4, 10], [0, 5, 9],
   [0, 6, 8], [1, 13, 0], [2, 12, 0], [3, 11, 0], [1, 12, 1], [2, 11, 1], [3, 10, 1],
   [1, 11, 2], [2, 10, 2], [3, 9, 2], [1, 10, 3], [2, 9, 3], [3, 8, 3], [12, 1, 1],
   [11, 2, 1], [10, 3, 1], [11, 1, 2], [10, 2, 2], [9, 3, 2], [1, 1, 12], [2, 1, 11],
   [3, 1, 10], [1, 2, 11], [2, 2, 10], [3, 2, 9], [1, 3, 10], [2, 3, 9], [3, 3, 8],
   [9, 4, 1], [6, 6, 2], [6, 2, 6], [12, 2, 0], [10, 4, 0], [4, 10, 0], [2, 12, 0],
   [0, 2, 12], [0, 4, 10], [0, 10, 4], [0, 12, 2], [10, 2, 2], [2, 2, 10], [2, 2, 10],
   [8, 4, 2], [4, 4, 6], [2, 2, 10], [2, 10, 2], [4, 8, 2]]

/-- `TDD_5G_CONFIGURATION`.  It is declared with `N_CONFIG` rows, and a row that is not
written is all zeros. -/
def tdd5gConfiguration (i : ℕ) : List ℕ := tddRows.getD i [0, 0, 0]

/-- `tdd_config`. -/
structure TddConfig where
  nDlSlots : ℤ
  nUlSlots : ℤ
  transitionC : ℤ
  deriving DecidableEq, Repr

/-- `tdd_handler`. -/
structure TddHandler where
  tddScheme : List Sym
  cIndex : ℕ := 0
  syms : ℤ
  tx : Direction
  dlSlots : ℤ
  ulSlots : ℤ
  tConfig : ℤ
  deriving DecidableEq, Repr

namespace TddHandler

/-- The first line of the constructor. -/
def checkTransition (transitionC : ℤ) : ℤ :=
  if 0 < transitionC ∧ transitionC < nConfig then transitionC else fallbackConfig

/-- The slots of one direction. -/
def slots (n : ℤ) (sym : Sym) : List Sym := List.replicate (n * n5gSyms).toNat sym

/-- The symbols a row of the table stands for. -/
def transitionSlot (row : List ℕ) : List Sym :=
  (row.zip tddOrder).flatMap fun (count, sym) => List.replicate count sym

/-- The constructor, which leaves `syms` without a value. -/
def make (c : TddConfig) (tx : Direction) (unset : ℤ) : TddHandler :=
  let transitionC := checkTransition c.transitionC
  { tddScheme := slots c.nDlSlots .dl
      ++ transitionSlot (tdd5gConfiguration transitionC.toNat) ++ slots c.nUlSlots .ul
    syms := unset
    tx := tx
    dlSlots := c.nDlSlots
    ulSlots := c.nUlSlots
    tConfig := transitionC }

/-- `set_syms`. -/
def setSyms (h : TddHandler) (syms : ℤ) : TddHandler := { h with syms := syms }

/-- The `for` of `get_syms`: the index and the count it ends with. -/
def getSymsLoop (h : TddHandler) : ℕ → ℕ → ℕ → Option (ℕ × ℕ)
  | 0, index, symsOut => some (index, symsOut)
  | n + 1, index, symsOut =>
    let index := if h.tddScheme.length ≤ index then 0 else index
    match h.tddScheme[index]? with
    | none => none
    | some sym =>
      let symsOut := if sym = .ul ∧ h.tx = .ul then symsOut + 1 else symsOut
      let symsOut := if sym = .dl ∧ h.tx = .dl then symsOut + 1 else symsOut
      getSymsLoop h n (index + 1) symsOut

/-- `get_syms`: the answer, and the handler it leaves. -/
def getSyms (h : TddHandler) : Option (ℕ × TddHandler) :=
  (h.getSymsLoop h.syms.toNat h.cIndex 0).map fun (index, symsOut) =>
    (symsOut, { h with cIndex := index })

/-- The answers of a number of calls, and the handler they leave. -/
def calls : ℕ → TddHandler → Option (List ℕ × TddHandler)
  | 0, h => some ([], h)
  | n + 1, h =>
    match h.getSyms with
    | none => none
    | some (symsOut, h) => (calls n h).map fun (answers, h) => (symsOut :: answers, h)

end TddHandler

end NetworkEmulator
