/-! Names that can be written bare as a property. ASCII letters, digits, underscore and dollar
only: any other name is quoted. -/

namespace Conform.Text

def isLetter (c : Char) : Bool := ('a' ≤ c && c ≤ 'z') || ('A' ≤ c && c ≤ 'Z')

def startsIdentifier (c : Char) : Bool := isLetter c || c == '_' || c == '$'

def continuesIdentifier (c : Char) : Bool := startsIdentifier c || ('0' ≤ c && c ≤ '9')

def isIdentifier (s : String) : Bool :=
  match s.toList with
  | [] => false
  | c :: cs => startsIdentifier c && cs.all continuesIdentifier

end Conform.Text
