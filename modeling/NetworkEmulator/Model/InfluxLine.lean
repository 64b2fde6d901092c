/-
The text of a line of metrics: as the worker of `src/utils/monitoring/aggregator.cpp` writes
it, and as `parse_influx_line` of `src/py_analyzers/live_dashboard.py` reads it.

The worker prints numbers with six decimals, to the nearest and halves to even.  The parser
cuts the line at its first and at its last blank and takes the parts apart at commas.
`int` and `float` are those of Python on decimal numerals: underscores, digits that are not
ASCII, infinities and nans, which they take too, are left out.
-/
import NetworkEmulator.Library.Rounding
import NetworkEmulator.Model.Aggregator
import NetworkEmulator.Model.TrafficText

namespace NetworkEmulator

open Rounding

/-! ### Writing -/

/-- A number of millionths with its six decimals. -/
def sixDecimals (n : ℕ) : List Char :=
  Nat.toDigits 10 (n / 10 ^ 6) ++ '.' :: (Nat.toDigits 10 (n % 10 ^ 6)).leftpad 6 '0'

/-- `format_numeric_field`. -/
def formatNumericField (value : ℚ) : String :=
  String.ofList ((if value < 0 then ['-'] else []) ++
    sixDecimals (roundHalfEven (|value| * 10 ^ 6)).toNat)

/-- The loop over the fields of a series. -/
def fieldsText : Bool → List (String × ℚ) → String
  | _, [] => ""
  | firstField, (name, value) :: rest =>
    (if firstField then " " else ",") ++ (name ++ "=" ++ formatNumericField value) ++
      fieldsText false rest

/-- What is given to `emit_cb`. -/
def Line.text (l : Line) : String :=
  l.measurement ++ (if l.tags = "" then "" else "," ++ l.tags) ++ fieldsText true l.fields ++
    (" " ++ toString l.tsNs)

/-! ### Reading -/

/-- `str.isspace`, on one character. -/
def pyIsSpace (c : Char) : Bool :=
  (9 ≤ c.toNat && c.toNat ≤ 13) || (28 ≤ c.toNat && c.toNat ≤ 32) || c.toNat = 0x85 ||
    c.toNat = 0xa0 || c.toNat = 0x1680 || (0x2000 ≤ c.toNat && c.toNat ≤ 0x200a) ||
    c.toNat = 0x2028 || c.toNat = 0x2029 || c.toNat = 0x202f || c.toNat = 0x205f ||
    c.toNat = 0x3000

/-- `str.strip`. -/
def strip (s : List Char) : List Char := (s.dropWhile pyIsSpace).rdropWhile pyIsSpace

/-- `str.find`, of one character; `none` is -1. -/
def find (c : Char) (s : List Char) : Option ℕ := s.findIdx? (· = c)

/-- `str.rfind`, of one character; `none` is -1. -/
def rfind (c : Char) (s : List Char) : Option ℕ :=
  (s.reverse.findIdx? (· = c)).map (s.length - 1 - ·)

/-- `int`; `none` is a `ValueError`. -/
def pyInt (s : List Char) : Option ℤ :=
  let (sign, ds) := numeralSign (strip s)
  if ds ≠ [] ∧ ds.all Char.isDigit then some (sign * digitsValue ds) else none

/-- `float`; `none` is a `ValueError`. -/
def pyFloat (s : List Char) : Option ℚ :=
  match scanNumeral (strip s) with
  | (some v, []) => some v
  | _ => none

/-- `str.replace` of a backslash and `c` by `c`. -/
def replaceEscaped (c : Char) : List Char → List Char
  | x :: y :: rest =>
    if x = '\\' ∧ y = c then c :: replaceEscaped c rest else x :: replaceEscaped c (y :: rest)
  | s => s

/-- `item.split("=", 1)`, of an item that contains one. -/
def splitItem (item : List Char) : List Char × List Char :=
  (item.takeWhile (· ≠ '='), (item.dropWhile (· ≠ '=')).drop 1)

/-- The body of the loop over the tags. -/
def addTag (tags : Std.ExtTreeMap String String) (item : List Char) :
    Std.ExtTreeMap String String :=
  if '=' ∉ item then tags
  else
    let (key, value) := splitItem item
    tags.insert (String.ofList key)
      (String.ofList (replaceEscaped '=' (replaceEscaped ' ' (replaceEscaped ',' value))))

/-- The body of the loop over the fields. -/
def addField (fields : Std.ExtTreeMap String ℚ) (item : List Char) : Std.ExtTreeMap String ℚ :=
  if '=' ∉ item then fields
  else
    let (key, value) := splitItem item
    let value := if value.getLast? = some 'i' then value.dropLast else value
    match pyFloat value with
    | some v => fields.insert (String.ofList key) v
    | none => fields

/-- What `parse_influx_line` returns. -/
structure InfluxPoint where
  measurement : String
  tags : Std.ExtTreeMap String String
  fields : Std.ExtTreeMap String ℚ
  tsNs : ℤ
  deriving DecidableEq

/-- `parse_influx_line`. -/
def parseInfluxLine (line : String) : Option InfluxPoint :=
  let line := strip line.toList
  match find ' ' line, rfind ' ' line with
  | some firstSpace, some secondSpace =>
    if firstSpace = 0 ∨ secondSpace ≤ firstSpace then none
    else
      let headParts := (line.take firstSpace).splitOn ','
      let fieldsPart := (line.take secondSpace).drop (firstSpace + 1)
      (pyInt (line.drop (secondSpace + 1))).map fun tsNs =>
        { measurement := String.ofList (headParts.headD [])
          tags := headParts.tail.foldl addTag ∅
          fields := (fieldsPart.splitOn ',').foldl addField ∅
          tsNs := tsNs }
  | _, _ => none

end NetworkEmulator
