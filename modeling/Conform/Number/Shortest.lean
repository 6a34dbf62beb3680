import Conform.Number.Decimal

/-! The shortest decimal that reads back: of the decimals with the fewest digits inside the
interval of reals that round to a number, the one nearest to it. -/

namespace Conform

-- Powers are those of the core library, whatever else is imported; a literal exponent carries
-- its type, since it would be read as one of a monoid otherwise.
attribute [local instance (high)] instPowNat

structure Decimal where
  digits : Nat
  exponent : Int
  deriving DecidableEq, Repr

def Decimal.trim : Nat → Decimal → Decimal
  | 0, d => d
  | n + 1, d =>
    if d.digits ≠ 0 && d.digits % 10 = 0 then trim n ⟨d.digits / 10, d.exponent + 1⟩ else d

inductive Tie where
  | up
  | toEven
  deriving DecidableEq, Repr

namespace Double

/-- A point `n * 10 ^ exponent` of a decimal grid and the units of a `Double` on one scale:
`n * gridScale` units of the grid stand against `units * unitScale`. -/
def gridScale (exponent : Int) : Nat := 2 ^ (1074 : Nat) * 10 ^ exponent.toNat

def unitScale (exponent : Int) : Nat := 10 ^ (-exponent).toNat

/-- Whether `n * 10 ^ exponent` rounds to the magnitude of `rank`. The ends of the interval
belong to an even rank. -/
def readsBack (rank : Nat) (exponent : Int) (n : Nat) : Bool :=
  let low := (units (rank - 1) + units rank) * unitScale exponent
  let high := (units rank + units (rank + 1)) * unitScale exponent
  let point := 2 * n * gridScale exponent
  if rank % 2 = 0 then low ≤ point && point ≤ high else low < point && point < high

def gridPoint? (tie : Tie) (rank : Nat) (exponent : Int) : Option Nat :=
  let value := units rank * unitScale exponent
  let below := value / gridScale exponent
  match readsBack rank exponent below, readsBack rank exponent (below + 1) with
  | false, false => none
  | true, false => some below
  | false, true => some (below + 1)
  | true, true =>
    match compare (2 * value) ((2 * below + 1) * gridScale exponent), tie with
    | .lt, _ => some below
    | .gt, _ => some (below + 1)
    | .eq, .up => some (below + 1)
    | .eq, .toEven => some (below + below % 2)

def leadingPower (rank : Nat) : Int :=
  (decimalDigits (units rank * 10 ^ decimalReach / 2 ^ (1074 : Nat))).length - 1 - decimalReach

/-- The grids of one digit, two digits and so on up to seventeen, which always has a hit. -/
def shortest (tie : Tie) (rank : Nat) : Decimal :=
  let top := leadingPower rank
  let hit := (List.range 17).findSome? fun (n : Nat) =>
    (gridPoint? tie rank (top - n)).map fun d => Decimal.mk d (top - n)
  (hit.getD ⟨units rank, 0⟩).trim 17

end Double

end Conform
