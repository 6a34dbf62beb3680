import Conform.Text.Split

/-! Paths of files: names between slashes. Names that are empty or one dot lead nowhere, but a
dot that opens a path counts as a name of its own. -/

namespace Conform

abbrev FilePath := String

namespace FilePath

def names (p : FilePath) : List (List Char) := Text.split '/' p.toList

def ofNames (names : List (List Char)) : FilePath := String.ofList (Text.join '/' names)

def isAbsolute (p : FilePath) : Bool := p.toList.head? == some '/'

def endsInSlash (p : FilePath) : Bool := p.toList.getLast? == some '/'

/-- Whether a name after the first leads nowhere. -/
def stays (name : List Char) : Bool := name == [] || name == ['.']

def settled : List (List Char) → List (List Char)
  | [] => []
  | n :: ns => n :: (ns.reverse.dropWhile stays).reverse

/-- The path without its last name; a root and the empty path have none. -/
def parent? (p : FilePath) : Option FilePath :=
  match settled p.names with
  | [] | [[]] => none
  | ns => match settled ns.dropLast with
    | [[]] => some "/"
    | above => some (ofNames above)

def isCurrent (p : FilePath) : Bool :=
  match p.names with
  | ['.'] :: ns => ns.all stays
  | _ => false

/-- A path from a base on. Absolute paths do not depend on it. -/
def under (base p : FilePath) : FilePath :=
  if p.isAbsolute then p
  else if base = "" || base.endsInSlash then base ++ p
  else base ++ "/" ++ p

/-- The path of an entry of a directory. Entries of the current directory go by their names. -/
def entry (directory : FilePath) (name : String) : FilePath :=
  if directory.isCurrent then name else under directory name

end FilePath

end Conform
