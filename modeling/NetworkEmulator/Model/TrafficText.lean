/-
The text of a traffic file, as `include/traffic_models/traffic_generator.h` reads it.

`>>` into a number skips white space and takes what may be part of a numeral: a sign, digits
with a point among them, and once there is a digit an `e` with a sign and digits.  A numeral
that is not complete fails and stores 0; one beyond the type fails and stores the greatest
number of the type; at the end of the file nothing is stored.  Other numbers are rounded to
the type, small ones to 0.

`reset_file` makes the stream good and starts the file over.  `dumb_tp` and `dumb_t` are
never read.  The loop of the source has no bound; `fuel` bounds it here, and running out of
it is `none`.
-/
import NetworkEmulator.Library.Rounding
import NetworkEmulator.Model.ConfigurationText
import NetworkEmulator.Model.ResourceGrid

namespace NetworkEmulator

open Rounding

/-! ### Numbers in a file -/

/-- What `>>` does with a number: it reads one, it fails and stores another, or it fails and
stores none. -/
inductive Extracted where
  | number (v : ℚ)
  | failed (v : ℚ)
  | nothing
  deriving DecidableEq, Repr

namespace Extracted

/-- What is stored, if anything. -/
def stored : Extracted → Option ℚ
  | number v => some v
  | failed v => some v
  | nothing => none

/-- Whether the stream is left without `failbit`. -/
def isNumber : Extracted → Bool
  | number _ => true
  | _ => false

end Extracted

/-- The digits a numeral starts with, those after its point, and what follows. -/
def scanMantissa (s : List Char) : List Char × List Char × List Char :=
  match s.dropWhile Char.isDigit with
  | '.' :: rest =>
    (s.takeWhile Char.isDigit, rest.takeWhile Char.isDigit, rest.dropWhile Char.isDigit)
  | rest => (s.takeWhile Char.isDigit, [], rest)

/-- The exponent after a mantissa, if it is complete, and what follows. -/
def scanExponent : List Char → Option ℤ × List Char
  | c :: s =>
    if c = 'e' ∨ c = 'E' then
      let (sign, s) := numeralSign s
      let ds := s.takeWhile Char.isDigit
      (if ds = [] then none else some (sign * digitsValue ds), s.dropWhile Char.isDigit)
    else (some 0, c :: s)
  | [] => (some 0, [])

/-- The numeral a text starts with, if it is complete, and what follows. -/
def scanNumeral (s : List Char) : Option ℚ × List Char :=
  let (sign, s) := numeralSign s
  let (whole, fraction, s) := scanMantissa s
  if whole ++ fraction = [] then (none, s)
  else
    let (exponent, s) := scanExponent s
    (exponent.map fun e =>
      sign * digitsValue (whole ++ fraction) / 10 ^ fraction.length * 10 ^ e, s)

/-- A file: what is left to read, and whether the stream is good. -/
structure FileStream where
  rest : List Char
  good : Bool := true
  deriving DecidableEq, Repr

namespace FileStream

/-- `>>` into a number. -/
def extract (f : Format) (s : FileStream) : Extracted × FileStream :=
  if s.good then
    if s.rest.dropWhile isSpace = [] then (.nothing, { rest := [], good := false })
    else
      match scanNumeral (s.rest.dropWhile isSpace) with
      | (some v, rest) =>
        if |f.round v| < 2 ^ f.maxExponent then
          (.number (f.round v), { rest := rest, good := rest ≠ [] })
        else (.failed (if v < 0 then -f.largest else f.largest), { rest := rest, good := false })
      | (none, rest) => (.failed 0, { rest := rest, good := false })
  else (.nothing, s)

/-- `file >> last_t >> last_tp`. -/
def readRecord (s : FileStream) : Extracted × Extracted × FileStream :=
  let (t, s) := s.extract binary64
  let (tp, s) := s.extract binary32
  (t, tp, s)

end FileStream

/-! ### The generator -/

/-- The state of one direction: its file, `last_t`, `last_tp` and `t_acc`. -/
structure TextReader where
  text : List Char
  file : FileStream := { rest := text }
  lastT : ℚ := 0
  lastTp : ℚ := 0
  tAcc : ℚ := 0
  deriving DecidableEq, Repr

namespace TextReader

/-- Reads a record, and says whether there was one. -/
def read (r : TextReader) : TextReader × Bool :=
  let (t, tp, file) := r.file.readRecord
  ({ r with file := file, lastT := t.stored.getD r.lastT, lastTp := tp.stored.getD r.lastTp },
    tp.isNumber)

/-- What is done with a record that was read: the new state and what it adds to the total. -/
def accept (r : TextReader) (t : ℚ) : TextReader × ℚ :=
  if r.lastT ≤ t then ({ r with lastT := binary64.store (r.lastT + r.tAcc) }, r.lastTp) else (r, 0)

/-- The state after `reset_file`. -/
def rewound (r : TextReader) : TextReader :=
  { r with tAcc := binary32.store r.lastT, file := { rest := r.text } }

/-- The body of the loop. -/
def body (r : TextReader) (t : ℚ) : TextReader × ℚ :=
  match r.read with
  | (r, true) => r.accept t
  | (r, false) =>
    match r.rewound.read with
    | (r, true) => r.accept t
    | (r, false) => (r, 0)

/-- The loop, from the total so far. -/
def loop (t : ℚ) : ℕ → TextReader → ℚ → Option (TextReader × ℚ)
  | 0, _, _ => none
  | fuel + 1, r, total =>
    if r.lastT ≤ t then loop t fuel (r.body t).1 (binary32.store (total + (r.body t).2))
    else some (r, total)

/-- `generate_ul` and `generate_dl`, after the delay. -/
def generate (fuel : ℕ) (r : TextReader) (t : ℚ) : Option (TextReader × ℚ) :=
  (loop t fuel r (if r.lastT ≤ t then r.lastTp else 0)).map fun x => (x.1, binary32.store (x.2 * 8))

end TextReader

/-- `traffic_generator`.  `delay` is what the constructor makes of it. -/
structure TextGenerator where
  ul : TextReader
  dl : TextReader
  delay : ℚ
  deriving DecidableEq, Repr

namespace TextGenerator

/-- The generator after its constructor. -/
def constructed (ulText dlText : List Char) (delay : ℚ) : TextGenerator :=
  { ul := { text := ulText }, dl := { text := dlText }, delay := delay }

/-- `generate_ul`. -/
def generateUl (fuel : ℕ) (g : TextGenerator) (t : ℚ) : Option (TextGenerator × ℚ) :=
  (g.ul.generate fuel (binary64.store (t - g.delay))).map fun x => ({ g with ul := x.1 }, x.2)

/-- `generate_dl`. -/
def generateDl (fuel : ℕ) (g : TextGenerator) (t : ℚ) : Option (TextGenerator × ℚ) :=
  (g.dl.generate fuel (binary64.store (t - g.delay))).map fun x => ({ g with dl := x.1 }, x.2)

/-- `generate`. -/
def generate (fuel : ℕ) (g : TextGenerator) (tx : Direction) (t : ℚ) :
    Option (TextGenerator × ℚ) :=
  match tx with
  | .ul => g.generateUl fuel t
  | .dl => g.generateDl fuel t

/-- A sequence of calls in either direction, and what each returns. -/
def calls (fuel : ℕ) : TextGenerator → List (Direction × ℚ) → Option (TextGenerator × List ℚ)
  | g, [] => some (g, [])
  | g, (tx, t) :: rest =>
    (g.generate fuel tx t).bind fun x => (x.1.calls fuel rest).map fun y => (y.1, x.2 :: y.2)

end TextGenerator

end NetworkEmulator
