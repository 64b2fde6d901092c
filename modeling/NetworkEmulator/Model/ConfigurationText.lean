/-
The text of a configuration, as `src/simulator/configuration_loader.cpp` reads it.

A line that starts with a letter holds a key that ends in a colon, and a value; a line that
starts with a bracket holds the name of a section between its first and its last character;
the other lines are skipped.  Values go through `std::stoi` and `std::stof`, which read the
longest numeral the text starts with.  Hexadecimal, infinite and nan numerals are left out,
and a `float` is an exact rational.
-/
import Mathlib

namespace NetworkEmulator

/-! ### Numerals -/

/-- `std::isspace`. -/
def isSpace (c : Char) : Bool := c.toNat = 32 || (9 ≤ c.toNat && c.toNat ≤ 13)

/-- The number some digits spell. -/
def digitsValue (ds : List Char) : ℕ := ds.foldl (fun n c => 10 * n + (c.toNat - 48)) 0

/-- The sign a numeral starts with, and what follows. -/
def numeralSign : List Char → ℤ × List Char
  | '-' :: s => (-1, s)
  | '+' :: s => (1, s)
  | s => (1, s)

/-- `std::stoi`; `none` is what it throws. -/
def stoi (value : String) : Option ℤ :=
  let (sign, s) := numeralSign (value.toList.dropWhile isSpace)
  let ds := s.takeWhile Char.isDigit
  let n := sign * digitsValue ds
  if ds = [] then none else if -2 ^ 31 ≤ n ∧ n < 2 ^ 31 then some n else none

/-- The exponent of a numeral. -/
def numeralExponent : List Char → ℤ
  | c :: s =>
    if c = 'e' ∨ c = 'E' then
      let (sign, s) := numeralSign s
      sign * digitsValue (s.takeWhile Char.isDigit)
    else 0
  | [] => 0

/-- `std::stof` and `std::stod`; `none` is what they throw. -/
def stof (value : String) : Option ℚ :=
  let (sign, s) := numeralSign (value.toList.dropWhile isSpace)
  let whole := s.takeWhile Char.isDigit
  let rest := s.dropWhile Char.isDigit
  let (fraction, rest) := match rest with
    | '.' :: s => (s.takeWhile Char.isDigit, s.dropWhile Char.isDigit)
    | _ => ([], rest)
  if whole ++ fraction = [] then none
  else some (sign * digitsValue (whole ++ fraction) / 10 ^ fraction.length *
    10 ^ numeralExponent rest)

/-- What the values `true`, `1`, `false` and `0` set a flag to; others leave it. -/
def flagOf (value : String) : Option Bool :=
  if value = "true" ∨ value = "1" then some true
  else if value = "false" ∨ value = "0" then some false else none

/-! ### Lines -/

/-- The sections the loader knows.  `[Monitoring]` is not among the modelled ones. -/
inductive Mode where
  | ue
  | global
  | scenario
  | eNBConfig
  | pdcpRlc
  | macLayer
  | phyLayer
  | other
  deriving DecidableEq, Repr

/-- The section of a name. -/
def Mode.ofName : String → Mode
  | "UE" => .ue
  | "Global" => .global
  | "Scenario" => .scenario
  | "eNBConfig" => .eNBConfig
  | "PDCP_RLC" => .pdcpRlc
  | "MACLayer" => .macLayer
  | "PHYLayer" => .phyLayer
  | _ => .other

/-- What a line is to the loader. -/
inductive ConfigLine where
  | header (mode : Mode)
  | entry (key value : String)
  | skip
  deriving DecidableEq, Repr

/-- The next word of a line, and what follows. -/
def nextWord (s : List Char) : List Char × List Char :=
  let s := s.dropWhile isSpace
  (s.takeWhile fun c => !isSpace c, s.dropWhile fun c => !isSpace c)

/-- How a line is read. -/
def readLine (line : String) : ConfigLine :=
  match line.toList with
  | [] => .skip
  | c :: s =>
    if c.isAlpha then
      let (key, rest) := nextWord (c :: s)
      let (value, _) := nextWord rest
      if value = [] then .skip
      else if key.getLast? = some ':' then .entry (String.ofList key.dropLast) (String.ofList value)
      else .skip
    else if c = '[' then .header (.ofName (String.ofList s.dropLast))
    else .skip

/-! ### Sections -/

/-- A section: its name, and its keys with their values. -/
structure ConfigSection where
  mode : Mode
  entries : List (String × String) := []
  deriving DecidableEq, Repr

/-- The sections of a text, with one more line.  Keys before the first section are in none. -/
def addLine (sections : List ConfigSection) (line : String) : List ConfigSection :=
  match readLine line with
  | .header mode => sections ++ [{ mode := mode }]
  | .entry key value =>
    match sections.getLast? with
    | none => sections
    | some s => sections.dropLast ++ [{ s with entries := s.entries ++ [(key, value)] }]
  | .skip => sections

/-- The sections of a text. -/
def sectionsOf (lines : List String) : List ConfigSection := lines.foldl addLine []

end NetworkEmulator
