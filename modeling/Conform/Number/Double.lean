/-! Floating point numbers of 64 bits, exactly. The finite magnitudes are ranked from zero
upwards, and the magnitude of a rank is a whole number of units of `2 ^ -1074`; rounding a
quotient picks the nearest rank, and of two equally near ones the even one. -/

namespace Conform

-- Powers are those of the core library, whatever else is imported; a literal exponent carries
-- its type, since it would be read as one of a monoid otherwise.
attribute [local instance (high)] instPowNat

abbrev rankLimit : Nat := 2047 * 2 ^ (52 : Nat)

inductive Double where
  | nan
  | infinite (negative : Bool)
  | finite (negative : Bool) (rank : Fin rankLimit)
  deriving DecidableEq, Repr

namespace Double

/-- The magnitude of a rank, counted in units of `2 ^ -1074`. -/
def units (rank : Nat) : Nat :=
  if rank < 2 ^ (52 : Nat) then rank
  else (2 ^ (52 : Nat) + rank % 2 ^ (52 : Nat)) * 2 ^ (rank / 2 ^ (52 : Nat) - 1)

/-- The last rank whose magnitude is at most `n` units. -/
def rankBelow (n : Nat) : Nat :=
  (n.log2 - 52) * 2 ^ (52 : Nat) + n / 2 ^ (n.log2 - 52)

def ofRank (negative : Bool) (rank : Nat) : Double :=
  if h : rank < rankLimit then .finite negative ⟨rank, h⟩ else .infinite negative

/-- The number nearest to `num / den`, of two equally near ones that of even rank. -/
def nearest (negative : Bool) (num den : Nat) : Double :=
  let below := rankBelow (num * 2 ^ (1074 : Nat) / den)
  match compare (2 * (num * 2 ^ (1074 : Nat))) ((units below + units (below + 1)) * den) with
  | .lt => ofRank negative below
  | .gt => ofRank negative (below + 1)
  | .eq => ofRank negative (below + below % 2)

def zero : Double := .finite false ⟨0, by decide⟩

def ofInt (i : Int) : Double := nearest (i < 0) i.natAbs 1

def isZero : Double → Bool
  | .finite _ rank => rank.val == 0
  | _ => false

def equal : Double → Double → Bool
  | .finite s r, .finite t q => r == q && (s == t || r.val == 0)
  | .infinite s, .infinite t => s == t
  | _, _ => false

/-- Equality of the entries of a table: as `equal`, and a nan is one entry. -/
def same : Double → Double → Bool
  | .nan, .nan => true
  | a, b => a.equal b

def toInt? : Double → Option Int
  | .finite negative rank =>
    if units rank % 2 ^ (1074 : Nat) = 0 then
      let n : Int := units rank / 2 ^ (1074 : Nat)
      some (if negative then -n else n)
    else none
  | _ => none

/-- Integers up to this magnitude are told apart from their neighbours. -/
def safeLimit : Nat := 2 ^ (53 : Nat) - 1

def toSafeInt? (d : Double) : Option Int :=
  d.toInt?.filter fun i => i.natAbs ≤ safeLimit

end Double

end Conform
