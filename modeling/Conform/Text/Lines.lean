import Conform.Text.Split

/-! Lines and line ends. A line ends in a line feed; a carriage return right before it belongs
to the end. -/

namespace Conform.Text

inductive LineEnding where
  | crlf
  | lf
  deriving DecidableEq, Repr

def dropReturn (line : List Char) : List Char :=
  match line.reverse with
  | '\r' :: r => r.reverse
  | _ => line

/-- The lines of a text without their ends. A text that stops after a line end has no empty
last line, and a last line without an end keeps its carriage return. -/
def lines (cs : List Char) : List (List Char) :=
  let ps := split '\n' cs
  ps.dropLast.map dropReturn ++ (ps.getLast?.filter (!·.isEmpty)).toList

def toLineFeeds : List Char → List Char
  | '\r' :: '\n' :: cs => '\n' :: toLineFeeds cs
  | c :: cs => c :: toLineFeeds cs
  | [] => []

def returnsBeforeFeeds (cs : List Char) : List Char :=
  cs.flatMap fun c => if c = '\n' then ['\r', '\n'] else [c]

/-- Text under a line ending. `lf` leaves it alone. -/
def LineEnding.apply : LineEnding → List Char → List Char
  | .lf, cs => cs
  | .crlf, cs => returnsBeforeFeeds (toLineFeeds cs)

end Conform.Text
