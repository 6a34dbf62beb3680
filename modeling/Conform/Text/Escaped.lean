import Conform.Text.Quoted
import Conform.Text.Printable

/-! Text in double quotes for people to read: what cannot be seen on its own is escaped too. -/

namespace Conform.Text

def escapedChar (c : Char) : List Char :=
  if c = '"' then ['\\', '"']
  else if c = '\\' then ['\\', '\\']
  else if c = '\n' then ['\\', 'n']
  else if c = '\r' then ['\\', 'r']
  else if c = '\t' then ['\\', 't']
  else if c.toNat = 0 then ['\\', '0']
  else if isPrintable c && !isExtender c then [c]
  else ['\\', 'u', '\x7b'] ++ hexDigits c.toNat ++ ['\x7d']

def escapedChars (cs : List Char) : List Char := '"' :: cs.flatMap escapedChar ++ ['"']

def escaped (s : String) : String := String.ofList (escapedChars s.toList)

end Conform.Text
