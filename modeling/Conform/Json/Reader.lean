import Conform.Json.Tree

/-! Reading data from text. Reading is total: a text that is no data gives a tree that says
where it stops. -/

namespace Conform.Json

-- Powers are those of the core library, whatever else is imported; a literal exponent carries
-- its type, since it would be read as one of a monoid otherwise.
attribute [local instance (high)] instPowNat

-- Sums start at the zero of the core library, whatever else is imported.
attribute [local instance (high)] Zero.ofOfNat0

structure Cursor where
  offset : Nat
  rest : List Char

namespace Cursor

def ofText (cs : List Char) : Cursor := ⟨0, cs⟩

/-- Past `n` ASCII characters, which end where `rest` begins. -/
def skip (c : Cursor) (n : Nat) (rest : List Char) : Cursor := ⟨c.offset + n, rest⟩

def isSpace (c : Char) : Bool := c == ' ' || c == '\n' || c == '\t' || c == '\r'

def skipSpace (c : Cursor) : Cursor :=
  ⟨c.offset + (c.rest.takeWhile isSpace).length, c.rest.dropWhile isSpace⟩

def before {α : Type} (c : Cursor) (fault : Fault) : Except Stop α := .error ⟨fault, c.offset⟩

def behind {α : Type} (c : Cursor) (fault : Fault) : Except Stop α := .error ⟨fault, c.offset + 1⟩

end Cursor

def readWord (c : Cursor) : List Char → Except Stop Cursor
  | [] => .ok c
  | w :: ws => match c.rest with
    | [] => c.before .eofInValue
    | d :: ds => if d = w then readWord (c.skip 1 ds) ws else c.behind .expectedWord

/-! ### Strings -/

def hexValue? (c : Char) : Option Nat :=
  if '0' ≤ c && c ≤ '9' then some (c.toNat - '0'.toNat)
  else if 'a' ≤ c && c ≤ 'f' then some (c.toNat - 'a'.toNat + 10)
  else if 'A' ≤ c && c ≤ 'F' then some (c.toNat - 'A'.toNat + 10)
  else none

def byteLength (cs : List Char) : Nat := (cs.map Char.utf8Size).sum

/-- Four hexadecimal digits. Four characters have at least four bytes. -/
def readHex (c : Cursor) : Except Stop (Nat × Cursor) :=
  let remaining := byteLength (c.rest.take 4)
  if remaining < 4 then .error ⟨.eofInString, c.offset + remaining⟩
  else match c.rest with
    | h₁ :: h₂ :: h₃ :: h₄ :: rest =>
      match hexValue? h₁, hexValue? h₂, hexValue? h₃, hexValue? h₄ with
      | some a, some b, some d, some e => .ok (((a * 16 + b) * 16 + d) * 16 + e, c.skip 4 rest)
      | _, _, _, _ => .error ⟨.invalidEscape, c.offset + 4⟩
    | _ => .error ⟨.invalidEscape, c.offset + 4⟩

def readExactly (c : Cursor) (wanted : Char) : Except Stop Cursor :=
  match c.rest with
  | [] => c.before .eofInString
  | d :: ds => if d = wanted then .ok (c.skip 1 ds) else c.behind .hexEscapeEnds

/-- The character of a hexadecimal escape. Characters beyond the first plane are pairs of
escapes, and neither half of a pair stands alone. -/
def readUnicode (c : Cursor) : Except Stop (Char × Cursor) := do
  let (n, c) ← readHex c
  if 0xDC00 ≤ n && n ≤ 0xDFFF then c.before .loneSurrogate
  else if n < 0xD800 || 0xDBFF < n then return (Char.ofNat n, c)
  else
    let c ← readExactly c '\\'
    let c ← readExactly c 'u'
    let (m, c) ← readHex c
    if m < 0xDC00 || 0xDFFF < m then c.before .loneSurrogate
    else return (Char.ofNat ((n - 0xD800) * 0x400 + (m - 0xDC00) + 0x10000), c)

def readEscape (c : Cursor) : Except Stop (Char × Cursor) :=
  match c.rest with
  | [] => c.before .eofInString
  | e :: rest =>
    if e = '"' || e = '\\' || e = '/' then .ok (e, c.skip 1 rest)
    else if e = 'b' then .ok ('\x08', c.skip 1 rest)
    else if e = 'f' then .ok ('\x0c', c.skip 1 rest)
    else if e = 'n' then .ok ('\n', c.skip 1 rest)
    else if e = 'r' then .ok ('\r', c.skip 1 rest)
    else if e = 't' then .ok ('\t', c.skip 1 rest)
    else if e = 'u' then readUnicode (c.skip 1 rest)
    else c.behind .invalidEscape

/-- The characters up to a closing quote; `done` holds those before, last first. Each turn
takes a character at least, so no more turns are needed than the text has characters. -/
def readChars : List Char → List Char → Cursor → Except Stop (String × Cursor)
  | [], _, c => c.before .eofInString
  | _ :: turns, done, c => match c.rest with
    | [] => c.before .eofInString
    | d :: ds =>
      if d = '"' then .ok (String.ofList done.reverse, c.skip 1 ds)
      else if d = '\\' then do
        let (e, c) ← readEscape (c.skip 1 ds)
        readChars turns (e :: done) c
      else if d.toNat < 0x20 then c.behind .controlCharacter
      else readChars turns (d :: done) (c.skip d.utf8Size ds)

def readString (c : Cursor) : Except Stop (String × Cursor) :=
  readChars ('"' :: c.rest) [] c

/-! ### Numbers -/

def readDigits (c : Cursor) : List Char × Cursor :=
  let ds := c.rest.takeWhile isDigit
  (ds, c.skip ds.length (c.rest.dropWhile isDigit))

def readPlaces (c : Cursor) : Except Stop (List Char × Cursor) :=
  match c.rest with
  | '.' :: rest =>
    let (ds, c) := readDigits (c.skip 1 rest)
    if ds.isEmpty then if c.rest.isEmpty then c.before .eofInValue else c.behind .invalidNumber
    else .ok (ds, c)
  | _ => .ok ([], c)

/-- Exponents are kept up to this magnitude. -/
def exponentLimit : Nat := 2 ^ (31 : Nat) - 1

/-- How many of the digits are read before their value passes the limit, that one included. -/
def digitsToLimit (n read : Nat) : List Char → Option Nat
  | [] => none
  | d :: ds =>
    let m := n * 10 + digitValue d
    if exponentLimit < m then some (read + 1) else digitsToLimit m (read + 1) ds

/-- An exponent, if there is one. One past the limit is out of range, unless it only makes a
number smaller or the digits before it are all zeros. -/
def readExponent (zero : Bool) (c : Cursor) : Except Stop (Option Int × Cursor) :=
  match c.rest with
  | e :: rest =>
    if e = 'e' || e = 'E' then
      let (negative, c) := match rest with
        | '-' :: ds => (true, c.skip 2 ds)
        | '+' :: ds => (false, c.skip 2 ds)
        | ds => (false, c.skip 1 ds)
      let (ds, next) := readDigits c
      if ds.isEmpty then if c.rest.isEmpty then c.before .eofInValue else c.behind .invalidNumber
      else match digitsToLimit 0 0 ds with
        | some read =>
          if negative || zero then .ok (some (-(exponentLimit : Int)), next)
          else .error ⟨.numberOutOfRange, c.offset + read⟩
        | none =>
          let n : Int := digitsValue ds
          .ok (some (if negative then -n else n), next)
    else .ok (none, c)
  | [] => .ok (none, c)

/-- An integer if it fits 64 bits, signed or unsigned; a negative zero does not. -/
def integerScalar (negative : Bool) (n : Nat) : Scalar :=
  if negative then
    if 0 < n && n ≤ 2 ^ (63 : Nat) then .integer (-(n : Int)) else .real (Double.ofDecimal true n 0)
  else if n < 2 ^ (64 : Nat) then .integer n
  else .real (Double.ofDecimal false n 0)

def readNumber (c : Cursor) : Except Stop (Scalar × Cursor) := do
  let (negative, c) := match c.rest with
    | '-' :: rest => (true, c.skip 1 rest)
    | _ => (false, c)
  let (whole, next) := readDigits c
  match whole with
  | [] => if c.rest.isEmpty then c.before .eofInValue else c.behind .invalidNumber
  | '0' :: _ :: _ => .error ⟨.invalidNumber, c.offset + 2⟩
  | _ =>
    let (places, next) ← readPlaces next
    let digits := digitsValue (whole ++ places)
    let (exponent, next) ← readExponent (digits == 0) next
    if places.isEmpty && exponent.isNone then
      match integerScalar negative digits with
      | .real (.infinite _) => next.before .numberOutOfRange
      | s => return (s, next)
    else
      match Double.ofDecimal negative digits (exponent.getD 0 - places.length) with
      | .infinite _ => next.before .numberOutOfRange
      | d => return (.real d, next)

/-! ### Values -/

abbrev Reading (α : Type) := α × Except Stop Cursor

def stoppedAt (c : Cursor) (stop : Stop) : Reading Tree :=
  (.stopped c.rest.head? c.offset stop, .error stop)

def scalarAt (c : Cursor) : Except Stop (Scalar × Cursor) → Reading Tree
  | .ok (s, next) => (.scalar s c.offset next.offset, .ok next)
  | .error stop => stoppedAt c stop

def closeList (c : Cursor) : Nat :=
  let c := c.skipSpace
  match c.rest with
  | ']' :: _ => c.offset + 1
  | ',' :: rest => (c.skip 1 rest).skipSpace.offset
  | _ => c.offset

def closeObject (c : Cursor) : Nat :=
  let c := c.skipSpace
  match c.rest with
  | '\x7d' :: _ => c.offset + 1
  | _ => c.offset

/-- Items up to the closing bracket. Each turn takes a character of the text at least. -/
def readItems (read : Cursor → Reading Tree) : List Char → Bool → Cursor → Reading Items
  | [], _, c => (.stopped ⟨.eofInList, c.offset⟩, c.before .eofInList)
  | _ :: turns, first, c =>
    let stop (s : Stop) : Reading Items := (.stopped s, .error s)
    let item (c : Cursor) : Reading Items :=
      match read c with
      | (value, .error s) => (.cons value 0 (.stopped s), .error s)
      | (value, .ok next) =>
        let (items, last) := readItems read turns false next
        (.cons value (closeList next) items, last)
    let c := c.skipSpace
    match c.rest with
    | [] => stop ⟨.eofInList, c.offset⟩
    | ']' :: rest => let c := c.skip 1 rest; (.closed c.offset, .ok c)
    | d :: ds =>
      if first then item c
      else if d = ',' then
        let c := (c.skip 1 ds).skipSpace
        match c.rest with
        | [] => stop ⟨.eofInValue, c.offset⟩
        | ']' :: _ => stop ⟨.trailingComma, c.offset + 1⟩
        | _ => item c
      else stop ⟨.expectedListCommaOrEnd, c.offset + 1⟩

def readEntries (read : Cursor → Reading Tree) : List Char → Bool → Cursor → Reading Entries
  | [], _, c => (.stopped ⟨.eofInObject, c.offset⟩, c.before .eofInObject)
  | _ :: turns, first, c =>
    let stop (s : Stop) : Reading Entries := (.stopped s, .error s)
    let entry (c : Cursor) : Reading Entries :=
      match c.rest with
      | '"' :: rest =>
        match readString (c.skip 1 rest) with
        | .error s => stop s
        | .ok (name, next) =>
          let key : Key := ⟨name, next.offset, closeObject next⟩
          let c := next.skipSpace
          match c.rest with
          | ':' :: rest =>
            match read (c.skip 1 rest) with
            | (value, .error s) => (.cons key value 0 (.stopped s), .error s)
            | (value, .ok next) =>
              let (entries, last) := readEntries read turns false next
              (.cons key value (closeObject next) entries, last)
          | [] => let s := ⟨.eofInObject, c.offset⟩; (.noValue key s, .error s)
          | _ => let s := ⟨.expectedColon, c.offset + 1⟩; (.noValue key s, .error s)
      | _ => stop ⟨.keyNotString, c.offset + 1⟩
    let c := c.skipSpace
    match c.rest with
    | [] => stop ⟨.eofInObject, c.offset⟩
    | '\x7d' :: rest => let c := c.skip 1 rest; (.closed c.offset, .ok c)
    | d :: ds =>
      if first then entry c
      else if d = ',' then
        let c := (c.skip 1 ds).skipSpace
        match c.rest with
        | [] => stop ⟨.eofInValue, c.offset⟩
        | '\x7d' :: _ => stop ⟨.trailingComma, c.offset + 1⟩
        | _ => entry c
      else stop ⟨.expectedObjectCommaOrEnd, c.offset + 1⟩

/-- A value with blanks before it, and lists and objects nested at most `depth` deep. -/
def readTree : Nat → Cursor → Reading Tree
  | depth, c =>
    let c := c.skipSpace
    match c.rest with
    | [] => stoppedAt c ⟨.eofInValue, c.offset⟩
    | d :: rest =>
      if d = 'n' then scalarAt c ((readWord (c.skip 1 rest) ['u', 'l', 'l']).map (.null, ·))
      else if d = 't' then
        scalarAt c ((readWord (c.skip 1 rest) ['r', 'u', 'e']).map (.bool true, ·))
      else if d = 'f' then
        scalarAt c ((readWord (c.skip 1 rest) ['a', 'l', 's', 'e']).map (.bool false, ·))
      else if d = '"' then
        scalarAt c ((readString (c.skip 1 rest)).map fun (s, next) => (.string s, next))
      else if d = '-' || isDigit d then scalarAt c (readNumber c)
      else if d = '[' then
        match depth with
        | 0 => stoppedAt c ⟨.tooDeep, c.offset + 1⟩
        | depth + 1 =>
          let (items, last) := readItems (readTree depth) c.rest true (c.skip 1 rest)
          (.list items c.offset, last)
      else if d = '\x7b' then
        match depth with
        | 0 => stoppedAt c ⟨.tooDeep, c.offset + 1⟩
        | depth + 1 =>
          let (entries, last) := readEntries (readTree depth) c.rest true (c.skip 1 rest)
          (.object entries c.offset, last)
      else stoppedAt c ⟨.expectedValue, c.offset + 1⟩

/-- Texts nest at most this deep. -/
def depthLimit : Nat := 127

def Tree.ofText (cs : List Char) : Tree := (readTree depthLimit (.ofText cs)).1

def ofChars (depth : Nat) (cs : List Char) : Except Stop Json := do
  let (tree, last) := readTree depth (.ofText cs)
  let j ← tree.toJson
  let next := (← last).skipSpace
  if next.rest.isEmpty then return j else next.behind .trailingCharacters

def ofText (s : String) : Except Stop Json := ofChars depthLimit s.toList

end Conform.Json
