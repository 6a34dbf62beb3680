/-! Paths: text that names a location, put together from parts when it is needed. -/

namespace Conform

inductive Path where
  | text (s : String)
  /-- The path that a record check was called with. -/
  | given
  /-- The counter of the loop of this depth. -/
  | counter (depth : Nat)
  | append (left right : Path)
  deriving DecidableEq, Repr

inductive PathPart where
  | text (s : String)
  | given
  | counter (depth : Nat)
  deriving DecidableEq, Repr

def PathPart.toPath : PathPart → Path
  | .text s => .text s
  | .given => .given
  | .counter depth => .counter depth

namespace Path

def parts : Path → List PathPart
  | .text s => [.text s]
  | .given => [.given]
  | .counter depth => [.counter depth]
  | .append left right => left.parts ++ right.parts

/-- Texts side by side become one. -/
def merge : List PathPart → List PathPart
  | [] => []
  | .text s :: ps => match merge ps with
    | .text t :: qs => .text (s ++ t) :: qs
    | qs => .text s :: qs
  | p :: ps => p :: merge ps

def ofParts : List PathPart → Path
  | [] => .text ""
  | p :: ps => ps.foldl (fun path q => .append path q.toPath) p.toPath

/-- The same path with texts merged and empty ones left out. -/
def folded (path : Path) : Path :=
  ofParts ((merge path.parts).filter fun p => p ≠ .text "")

def partText (given : String) (counter : Nat → Nat) : PathPart → String
  | .text s => s
  | .given => given
  | .counter depth => toString (counter depth)

def eval (given : String) (counter : Nat → Nat) (path : Path) : String :=
  String.join (path.parts.map (partText given counter))

end Path

/-- Names of loop counters: letters first, then numbered ones. -/
def counterName (depth : Nat) : String :=
  match ["i", "j", "k", "l", "m", "n"][depth]? with
  | some name => name
  | none => "i" ++ toString depth

end Conform
