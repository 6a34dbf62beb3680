import Conform.Number.Numeral
import Conform.Text.Quoted

/-! Data of the JSON format, with the order of fields kept, and its compact text. -/

namespace Conform

inductive Json where
  | null
  | bool (b : Bool)
  /-- A number without a point or exponent that fits 64 bits. -/
  | integer (i : Int)
  | real (d : Double)
  | string (s : String)
  | array (items : List Json)
  | object (fields : List (String × Json))
  deriving Inhabited

namespace Json

def integerChars (i : Int) : List Char :=
  Numeral.signed (i < 0) (decimalDigits i.natAbs)

/-- A real number is finite here; the others have no text and are written as null. -/
def realChars : Double → List Char
  | .finite negative rank => Numeral.data.chars (.finite negative rank)
  | _ => "null".toList

mutual

def chars : Json → List Char
  | .null => "null".toList
  | .bool b => (if b then "true" else "false").toList
  | .integer i => integerChars i
  | .real d => realChars d
  | .string s => Text.quotedChars s.toList
  | .array items => '[' :: itemsChars items ++ [']']
  | .object fields => '\x7b' :: fieldsChars fields ++ ['\x7d']

def itemsChars : List Json → List Char
  | [] => []
  | [j] => j.chars
  | j :: js => j.chars ++ ',' :: itemsChars js

def fieldsChars : List (String × Json) → List Char
  | [] => []
  | [(k, j)] => Text.quotedChars k.toList ++ ':' :: j.chars
  | (k, j) :: fs => Text.quotedChars k.toList ++ ':' :: j.chars ++ ',' :: fieldsChars fs

end

mutual

/-- The characters of a value with others behind them. No character is moved again on the way out
of lists and objects. -/
def charsBefore (rest : List Char) : Json → List Char
  | .array items => '[' :: itemsBefore (']' :: rest) items
  | .object fields => '\x7b' :: fieldsBefore ('\x7d' :: rest) fields
  | j => j.chars ++ rest

def itemsBefore (rest : List Char) : List Json → List Char
  | [] => rest
  | [j] => j.charsBefore rest
  | j :: js => j.charsBefore (',' :: itemsBefore rest js)

def fieldsBefore (rest : List Char) : List (String × Json) → List Char
  | [] => rest
  | [(k, j)] => Text.quotedChars k.toList ++ ':' :: j.charsBefore rest
  | (k, j) :: fs =>
    Text.quotedChars k.toList ++ ':' :: j.charsBefore (',' :: fieldsBefore rest fs)

end

mutual

theorem charsBefore_eq (rest : List Char) : ∀ j : Json, j.charsBefore rest = j.chars ++ rest
  | .array items => by simp [charsBefore, chars, itemsBefore_eq]
  | .object fields => by simp [charsBefore, chars, fieldsBefore_eq]
  | .null | .bool _ | .integer _ | .real _ | .string _ => by rw [charsBefore] <;> simp

theorem itemsBefore_eq (rest : List Char) :
    ∀ js : List Json, itemsBefore rest js = itemsChars js ++ rest
  | [] => rfl
  | [j] => by simp [itemsBefore, itemsChars, charsBefore_eq]
  | j :: k :: js => by
    rw [itemsBefore, itemsChars, charsBefore_eq, itemsBefore_eq]
    all_goals simp

theorem fieldsBefore_eq (rest : List Char) :
    ∀ fs : List (String × Json), fieldsBefore rest fs = fieldsChars fs ++ rest
  | [] => rfl
  | [(k, j)] => by simp [fieldsBefore, fieldsChars, charsBefore_eq]
  | (k, j) :: f :: fs => by
    rw [fieldsBefore, fieldsChars, charsBefore_eq, fieldsBefore_eq]
    all_goals simp

end

def text (j : Json) : String := String.ofList (j.charsBefore [])

theorem text_eq (j : Json) : j.text = String.ofList j.chars := by simp [text, charsBefore_eq]

end Json

end Conform
