/-! What can be wrong with a text of data, and where. Offsets count bytes from the start. -/

namespace Conform.Json

inductive Fault where
  | eofInList
  | eofInObject
  | eofInString
  | eofInValue
  | expectedColon
  | expectedListCommaOrEnd
  | expectedObjectCommaOrEnd
  | expectedWord
  | expectedValue
  | invalidEscape
  | invalidNumber
  | numberOutOfRange
  | controlCharacter
  | keyNotString
  | loneSurrogate
  | hexEscapeEnds
  | trailingComma
  | trailingCharacters
  | tooDeep
  deriving DecidableEq, Repr

def Fault.message : Fault → String
  | .eofInList => "EOF while parsing a list"
  | .eofInObject => "EOF while parsing an object"
  | .eofInString => "EOF while parsing a string"
  | .eofInValue => "EOF while parsing a value"
  | .expectedColon => "expected `:`"
  | .expectedListCommaOrEnd => "expected `,` or `]`"
  | .expectedObjectCommaOrEnd => "expected `,` or `\x7d`"
  | .expectedWord => "expected ident"
  | .expectedValue => "expected value"
  | .invalidEscape => "invalid escape"
  | .invalidNumber => "invalid number"
  | .numberOutOfRange => "number out of range"
  | .controlCharacter => "control character (\\u0000-\\u001F) found while parsing a string"
  | .keyNotString => "key must be a string"
  | .loneSurrogate => "lone leading surrogate in hex escape"
  | .hexEscapeEnds => "unexpected end of hex escape"
  | .trailingComma => "trailing comma"
  | .trailingCharacters => "trailing characters"
  | .tooDeep => "recursion limit exceeded"

structure Stop where
  fault : Fault
  offset : Nat
  deriving DecidableEq, Repr

/-- A line, counted from one, and the bytes of it before a place. -/
structure Position where
  line : Nat
  column : Nat
  deriving DecidableEq, Repr

/-- The position of an offset, which may lie inside a character. -/
def Position.advance (p : Position) : Nat → List Char → Position
  | _, [] => p
  | offset, c :: cs =>
    if offset < c.utf8Size then { p with column := p.column + offset }
    else
      let next := if c = '\n' then ⟨p.line + 1, 0⟩ else { p with column := p.column + c.utf8Size }
      next.advance (offset - c.utf8Size) cs

def Position.ofOffset (text : List Char) (offset : Nat) : Position :=
  Position.advance ⟨1, 0⟩ offset text

def Position.suffix (p : Position) : String :=
  " at line " ++ toString p.line ++ " column " ++ toString p.column

def Stop.message (text : List Char) (s : Stop) : String :=
  s.fault.message ++ (Position.ofOffset text s.offset).suffix

end Conform.Json
