import Conform.Text.Blank
import Conform.Transform.Calendar

/-! Reading moments: full timestamps with an offset, local timestamps, which count as universal
time, and dates that may stop after the month or the year. -/

namespace Conform.DateText

-- Powers are those of the core library, whatever else is imported.
attribute [local instance (high)] instPowNat

abbrev Reader (α : Type) := List Char → Option (α × List Char)

/-- At least `least` digits, and no more than `most` of them. -/
def number (least most : Nat) : Reader Nat := fun cs =>
  let ds := (cs.take most).takeWhile isDigit
  if ds.length < least then none else some (digitsValue ds, cs.drop ds.length)

def exactly (c : Char) : Reader Unit
  | [] => none
  | d :: ds => if d = c then some ((), ds) else none

/-- Up to nine digits of a fraction count, in billionths; there is one digit at least. -/
def fraction : Reader Nat := fun cs =>
  let ds := cs.takeWhile isDigit
  if ds.isEmpty then none
  else
    let counted := ds.take 9
    some (digitsValue counted * 10 ^ (9 - counted.length), cs.drop ds.length)

def optionalFraction : Reader Nat
  | '.' :: cs => fraction cs
  | cs => some (0, cs)

/-! ### Timestamps with an offset -/

def offset : Reader Int
  | [] => none
  | c :: cs =>
    if c = 'Z' || c = 'z' then some (0, cs)
    else do
      let negative ← if c = '+' then some false
        else if c = '-' || c.toNat = 0x2212 then some true else none
      let (hours, cs) ← number 2 2 cs
      let (_, cs) ← exactly ':' cs
      let (minutes, cs) ← number 2 2 cs
      if 59 < minutes || 23 < hours then none
      else
        let total : Int := (hours * 60 + minutes : Nat)
        some (if negative then -total else total, cs)

def separator : Reader Unit
  | c :: cs => if c = 'T' || c = 't' || c = ' ' then some ((), cs) else none
  | [] => none

/-- All fields have their full width, and seconds and an offset are there. -/
def timestamp? (cs : List Char) : Option Moment := do
  let (year, cs) ← number 4 4 cs
  let (_, cs) ← exactly '-' cs
  let (month, cs) ← number 2 2 cs
  let (_, cs) ← exactly '-' cs
  let (day, cs) ← number 2 2 cs
  let (_, cs) ← separator cs
  let (hour, cs) ← number 2 2 cs
  let (_, cs) ← exactly ':' cs
  let (minute, cs) ← number 2 2 cs
  let (_, cs) ← exactly ':' cs
  let (second, cs) ← number 2 2 cs
  let (nano, cs) ← optionalFraction cs
  let (minutes, cs) ← offset cs
  let m : Moment := ⟨⟨year, month, day⟩, hour, minute, second, nano⟩
  if cs.isEmpty && m.isValid then some (m.minusMinutes minutes) else none

/-! ### Local timestamps and dates -/

def short : Reader Nat := fun cs => number 1 2 (Text.trimStart cs)

/-- A year of up to four digits, or of any number of digits behind a sign. -/
def year : Reader Int := fun cs =>
  match Text.trimStart cs with
  | '-' :: ds => (number 1 ds.length ds).map fun (n, rest) => (-(n : Int), rest)
  | '+' :: ds => (number 1 ds.length ds).map fun (n, rest) => ((n : Int), rest)
  | ds => (number 1 4 ds).map fun (n, rest) => ((n : Int), rest)

def date : Reader Date := fun cs => do
  let (year, cs) ← year cs
  let (_, cs) ← exactly '-' cs
  let (month, cs) ← short cs
  let (_, cs) ← exactly '-' cs
  let (day, cs) ← short cs
  some (⟨year, month, day⟩, cs)

def minutes : Reader Moment := fun cs => do
  let (date, cs) ← date cs
  let (_, cs) ← exactly 'T' cs
  let (hour, cs) ← short cs
  let (_, cs) ← exactly ':' cs
  let (minute, cs) ← short cs
  some (⟨date, hour, minute, 0, 0⟩, cs)

def seconds : Reader Moment := fun cs => do
  let (m, cs) ← minutes cs
  let (_, cs) ← exactly ':' cs
  let (second, cs) ← short cs
  let (nano, cs) ← optionalFraction cs
  some ({ m with second, nano }, cs)

def whole? (r : Reader Moment) (cs : List Char) : Option Moment :=
  match r cs with
  | some (m, []) => if m.isValid then some m else none
  | _ => none

def midnight : Reader Moment := fun cs => (date cs).map fun (d, rest) => (⟨d, 0, 0, 0, 0⟩, rest)

/-- The first form that fits. A date without a day or without a month has the first one. -/
def moment? (cs : List Char) : Option Moment :=
  timestamp? cs <|> whole? seconds cs <|> whole? minutes cs <|> whole? midnight cs <|>
    whole? midnight (cs ++ "-01".toList) <|> whole? midnight (cs ++ "-01-01".toList)

end Conform.DateText
