import Conform.Files.Path

/-! Patterns for the names on a path: `?` is any character, `*` any text, brackets one of some
characters or, with `!`, any other, and a name of two stars is any number of directories. -/

namespace Conform

inductive PatternFault where
  /-- More than two stars in a row. -/
  | wildcards
  /-- Two stars that are not the whole name. -/
  | anyDepth
  | brackets
  deriving DecidableEq, Repr

structure PatternError where
  /-- Counted in characters. -/
  position : Nat
  fault : PatternFault
  deriving DecidableEq, Repr

def PatternFault.message : PatternFault → String
  | .wildcards => "wildcards are either regular `*` or recursive `**`"
  | .anyDepth => "recursive wildcards must form a single path component"
  | .brackets => "invalid range pattern"

def PatternError.message (e : PatternError) : String :=
  "Pattern syntax error near position " ++ toString e.position ++ ": " ++ e.fault.message

namespace Pattern

inductive Token where
  | char (c : Char)
  | anyChar
  /-- A character within one of the ranges or, if `negated`, within none. -/
  | oneOf (negated : Bool) (ranges : List (Char × Char))
  | anyText
  | anyDepth
  deriving DecidableEq, Repr

/-! ### Reading -/

def ranges : List Char → List (Char × Char)
  | a :: '-' :: b :: cs => (a, b) :: ranges cs
  | c :: cs => (c, c) :: ranges cs
  | [] => []

/-- What brackets stand for, with how many characters they take and those behind them. -/
structure Brackets where
  token : Token
  width : Nat
  rest : List Char

/-- Brackets hold at least one character, which may be a closing one. -/
def members? (negated : Bool) (first : Char) (cs : List Char) : Option Brackets :=
  let inner := cs.takeWhile (· != ']')
  match cs.dropWhile (· != ']') with
  | [] => none
  | _ :: rest => some ⟨.oneOf negated (ranges (first :: inner)), inner.length + 2, rest⟩

def brackets? : List Char → Option Brackets
  | '!' :: c :: cs => (members? true c cs).map fun b => { b with width := b.width + 1 }
  | c :: cs => members? false c cs
  | [] => none

theorem length_of_members? {negated : Bool} {first : Char} {cs : List Char} {b : Brackets}
    (h : members? negated first cs = some b) : b.width + b.rest.length = cs.length + 1 := by
  have hcs := congrArg List.length (List.takeWhile_append_dropWhile (p := (· != ']')) (l := cs))
  unfold members? at h
  split at h
  · simp at h
  · next heq =>
    simp only [Option.some.injEq] at h
    subst h
    simp only [heq, List.length_append, List.length_cons] at hcs ⊢
    omega

theorem length_of_brackets? {cs : List Char} {b : Brackets} (h : brackets? cs = some b) :
    b.width + b.rest.length = cs.length := by
  unfold brackets? at h
  split at h
  · simp only [Option.map_eq_some_iff] at h
    obtain ⟨b, h, rfl⟩ := h
    have := length_of_members? h
    simp only [List.length_cons]
    omega
  · have := length_of_members? h
    simp only [List.length_cons]
    omega
  · simp at h

/-- The tokens of a pattern from a position on, with the character `before` it. -/
def tokensFrom (before : Option Char) (position : Nat) (cs : List Char) :
    Except PatternError (List Token) :=
  match cs with
  | [] => .ok []
  | '?' :: cs => do return .anyChar :: (← tokensFrom (some '?') (position + 1) cs)
  | '*' :: '*' :: '*' :: _ => .error ⟨position + 2, .wildcards⟩
  | '*' :: '*' :: cs =>
    if before = none || before = some '/' then
      match cs with
      | [] => .ok [.anyDepth]
      | c :: cs =>
        if c = '/' then do return .anyDepth :: (← tokensFrom (some '/') (position + 3) cs)
        else .error ⟨position + 2, .anyDepth⟩
    else .error ⟨position - 1, .anyDepth⟩
  | '*' :: cs => do return .anyText :: (← tokensFrom (some '*') (position + 1) cs)
  | '[' :: cs =>
    match h : brackets? cs with
    | none => .error ⟨position, .brackets⟩
    | some b => do
      return b.token :: (← tokensFrom (some ']') (position + 1 + b.width) b.rest)
  | c :: cs => do return .char c :: (← tokensFrom (some c) (position + 1) cs)
termination_by cs.length
decreasing_by
  all_goals simp only [List.length_cons]
  all_goals first
    | omega
    | have := length_of_brackets? h
      omega

def tokens (cs : List Char) : Except PatternError (List Token) := tokensFrom none 0 cs

/-! ### Matching -/

def Token.admits : Token → Char → Bool
  | .char c, d => c == d
  | .oneOf negated rs, d => rs.any (fun r => r.1 ≤ d && d ≤ r.2) != negated
  | _, _ => true

/-- Whether a token stands for texts of any length and not for one character. -/
def Token.anyLength : Token → Bool
  | .anyText | .anyDepth => true
  | _ => false

/-- A flag for a name and for all that is left of it after each character, the empty text last. -/
abbrev Row := List Bool

def Row.onlyEmpty (name : List Char) : Row := name.map (fun _ => false) ++ [true]

/-- For each place whether a flag is set there or behind. -/
def Row.fromEach (row : Row) : Row :=
  row.foldr (fun b behind => (b || behind.headD false) :: behind) []

def Token.before (name : List Char) (t : Token) (row : Row) : Row :=
  if t.anyLength then row.fromEach
  else List.zipWith (fun c b => t.admits c && b) name row.tail ++ [false]

/-- Which parts of a name, up to its end, tokens stand for. Each token is compared with each
character once. -/
def row (name : List Char) : List Token → Row
  | [] => .onlyEmpty name
  | t :: ts => t.before name (row name ts)

def accepts (ts : List Token) (name : List Char) : Bool := (row name ts).headD false

theorem row_ne_nil (name : List Char) (ts : List Token) : row name ts ≠ [] := by
  induction ts with
  | nil => simp [row, Row.onlyEmpty]
  | cons t ts ih =>
    obtain ⟨b, behind, h⟩ := List.exists_cons_of_ne_nil ih
    simp only [row, Token.before]
    split <;> simp [Row.fromEach, h]

theorem row_nil (ts : List Token) : row [] ts = [ts.all Token.anyLength] := by
  induction ts with
  | nil => rfl
  | cons t ts ih => by_cases h : t.anyLength <;> simp [row, Token.before, ih, h, Row.fromEach]

theorem row_cons (c : Char) (name : List Char) (ts : List Token) :
    ∃ b, row (c :: name) ts = b :: row name ts := by
  induction ts with
  | nil => simp [row, Row.onlyEmpty]
  | cons t ts ih =>
    obtain ⟨_, h⟩ := ih
    obtain ⟨_, _, h'⟩ := List.exists_cons_of_ne_nil (row_ne_nil name ts)
    simp only [row, Token.before, h]
    split <;> simp [Row.fromEach, h']

theorem accepts_nil (name : List Char) : accepts [] name = name.isEmpty := by
  cases name <;> simp [accepts, row, Row.onlyEmpty]

theorem accepts_empty (ts : List Token) : accepts ts [] = ts.all Token.anyLength := by
  simp [accepts, row_nil]

/-- A token for any text stands for nothing, or for a character and any text again. -/
theorem accepts_of_anyLength {t : Token} (h : t.anyLength) (ts : List Token) (c : Char)
    (name : List Char) :
    accepts (t :: ts) (c :: name) = (accepts ts (c :: name) || accepts (t :: ts) name) := by
  obtain ⟨_, hr⟩ := row_cons c name ts
  simp [accepts, row, Token.before, h, hr, Row.fromEach]

theorem accepts_of_not_anyLength {t : Token} (h : ¬t.anyLength) (ts : List Token) (c : Char)
    (name : List Char) : accepts (t :: ts) (c :: name) = (t.admits c && accepts ts name) := by
  obtain ⟨_, hr⟩ := row_cons c name ts
  obtain ⟨_, _, hr'⟩ := List.exists_cons_of_ne_nil (row_ne_nil name ts)
  simp [accepts, row, Token.before, h, hr, hr']

/-! ### Paths -/

/-- A pattern for one name, or for directories below each other. -/
inductive Step where
  | name (name : String)
  | wild (tokens : List Token)
  | anyDepth
  deriving DecidableEq, Repr

def plain? : List Token → Option (List Char)
  | [] => some []
  | .char c :: ts => (plain? ts).map (c :: ·)
  | _ => none

def Step.ofTokens (ts : List Token) : Step :=
  if ts = [.anyDepth] then .anyDepth
  else match plain? ts with
    | some cs => .name (String.ofList cs)
    | none => .wild ts

def Step.accepts (name : String) : Step → Bool
  | .name s => name == s
  | .wild ts => Pattern.accepts ts name.toList
  | .anyDepth => true

/-- Several times any number of directories is once. -/
def collapse : List Step → List Step
  | .anyDepth :: .anyDepth :: ss => collapse (.anyDepth :: ss)
  | s :: ss => s :: collapse ss
  | [] => []

def isWildcard (c : Char) : Bool := c == '*' || c == '?' || c == '[' || c == '\x7b'

end Pattern

structure Pattern where
  start : FilePath
  steps : List Pattern.Step
  directoriesOnly : Bool
  deriving DecidableEq, Repr

namespace Pattern

/-- Reads a pattern. It is read as a whole first, where brackets may reach over slashes, and
then name by name. -/
def ofText (p : FilePath) : Except PatternError Pattern := do
  let _ ← tokens p.toList
  let names := Text.split '/' (if p.isAbsolute then p.toList.drop 1 else p.toList)
  let names := if names.getLast? = some [] then names.dropLast else names
  let steps ← names.mapM fun name => (tokens name).map Step.ofTokens
  return ⟨if p.isAbsolute then "/" else ".", collapse steps, p.endsInSlash⟩

end Pattern

end Conform
