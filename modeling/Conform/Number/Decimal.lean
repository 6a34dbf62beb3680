import Conform.Number.Double

/-! Decimals: a whole number of tens to a power, how it is rounded to a `Double`, and how the
digits of one are written in text. -/

namespace Conform

-- Powers are those of the core library, whatever else is imported.
attribute [local instance (high)] instPowNat

def isDigit (c : Char) : Bool := '0' ≤ c && c ≤ '9'

def digitValue (c : Char) : Nat := c.toNat - '0'.toNat

def digitsValue (cs : List Char) : Nat := cs.foldl (fun n c => n * 10 + digitValue c) 0

def decimalDigits (n : Nat) : List Char := Nat.toDigits 10 n

namespace Double

/-- No finite number reaches `10 ^ decimalReach`, and none but zero lies under its inverse. -/
def decimalReach : Nat := 400

/-- The number nearest to `digits * 10 ^ exponent`. Exponents out of reach are decided without
raising ten to them. -/
def ofDecimal (negative : Bool) (digits : Nat) (exponent : Int) : Double :=
  if digits = 0 then nearest negative 0 1
  else if 0 ≤ exponent then
    if decimalReach < exponent.toNat then .infinite negative
    else nearest negative (digits * 10 ^ exponent.toNat) 1
  else if (decimalDigits digits).length + decimalReach < (-exponent).toNat then
    nearest negative 0 1
  else nearest negative digits (10 ^ (-exponent).toNat)

def exponentOf? : List Char → Option Int
  | [] => some 0
  | c :: cs =>
    if c = 'e' || c = 'E' then
      let (negative, ds) := match cs with
        | '-' :: ds => (true, ds)
        | '+' :: ds => (false, ds)
        | ds => (false, ds)
      if ds.isEmpty || !ds.all isDigit then none
      else some (if negative then -(digitsValue ds : Int) else digitsValue ds)
    else none

/-- Reads an unsigned decimal: digits, a point and digits, an exponent, with a digit before the
exponent at least. -/
def magnitudeOf? (negative : Bool) (cs : List Char) : Option Double :=
  let whole := cs.takeWhile isDigit
  let (places, rest) := match cs.dropWhile isDigit with
    | '.' :: rest => (rest.takeWhile isDigit, rest.dropWhile isDigit)
    | rest => ([], rest)
  if (whole ++ places).isEmpty then none
  else (exponentOf? rest).map fun e =>
    ofDecimal negative (digitsValue (whole ++ places)) (e - places.length)

def ofText? (s : String) : Option Double :=
  if s = "NaN" then some .nan
  else
    let (negative, cs) := match s.toList with
      | '-' :: cs => (true, cs)
      | '+' :: cs => (false, cs)
      | cs => (false, cs)
    if cs = "inf".toList then some (.infinite negative) else magnitudeOf? negative cs

end Double

end Conform
