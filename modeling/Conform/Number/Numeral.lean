import Conform.Number.Shortest

/-! Numerals: the text of a `Double`, positional in the middle range and with an exponent
outside it. -/

namespace Conform

/-- How numbers are written. A decimal is positional if the place of its point, counted from
before the first digit, lies in the given range. -/
structure Numeral where
  leastPoint : Int
  greatestPoint : Int
  tie : Tie
  /-- Whether whole numbers get a point and a zero. -/
  pointZero : Bool
  /-- Whether a negative zero keeps its sign. -/
  signedZero : Bool

namespace Numeral

/-- Numerals of a script: whole numbers bare, positional below `10 ^ 21` and from `10 ^ -6`. -/
def script : Numeral := ⟨-5, 21, .up, false, false⟩

/-- Numerals of a data file for numbers that are no integers: positional below `10 ^ 16` and
from `10 ^ -5`, always with a point or an exponent. -/
def data : Numeral := ⟨-4, 16, .toEven, true, true⟩

def positional (style : Numeral) (ds : List Char) (point : Int) : List Char :=
  if point ≤ 0 then '0' :: '.' :: List.replicate (-point).toNat '0' ++ ds
  else if ds.length ≤ point.toNat then
    ds ++ List.replicate (point.toNat - ds.length) '0' ++
      (if style.pointZero then ['.', '0'] else [])
  else ds.take point.toNat ++ '.' :: ds.drop point.toNat

def exponential (ds : List Char) (point : Int) : List Char :=
  let power := point - 1
  ds.take 1 ++ (if 1 < ds.length then '.' :: ds.drop 1 else []) ++
    'e' :: (if power < 0 then '-' else '+') :: decimalDigits power.natAbs

def decimal (style : Numeral) (d : Decimal) : List Char :=
  let ds := decimalDigits d.digits
  let point := ds.length + d.exponent
  if style.leastPoint ≤ point && point ≤ style.greatestPoint then style.positional ds point
  else exponential ds point

def signed (negative : Bool) (cs : List Char) : List Char := if negative then '-' :: cs else cs

def chars (style : Numeral) : Double → List Char
  | .nan => "NaN".toList
  | .infinite negative => signed negative "Infinity".toList
  | .finite negative rank =>
    if rank.val = 0 then
      signed (negative && style.signedZero) ('0' :: if style.pointZero then ['.', '0'] else [])
    else signed negative (style.decimal (Double.shortest style.tie rank))

def text (style : Numeral) (d : Double) : String := String.ofList (style.chars d)

end Numeral

end Conform
