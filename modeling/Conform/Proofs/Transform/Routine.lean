import Conform.Proofs.Number.Rounding
import Conform.Transform.Builtin

/-! Conversion routines as scripts: how their statements are written, and what they do when they are
run on a value. Integers in texts are read as the standard library of scripts does, which has blanks
of its own. -/

namespace Conform.Routine

/-! ### Integers at the beginning of a text -/

def isScriptBlank (c : Char) : Bool :=
  let n := c.toNat
  (0x09 ≤ n && n ≤ 0x0D) || n == 0x20 || n == 0xA0 || n == 0x1680 ||
    (0x2000 ≤ n && n ≤ 0x200A) || n == 0x2028 || n == 0x2029 || n == 0x202F || n == 0x205F ||
    n == 0x3000 || n == 0xFEFF

/-- Whether a text begins with a minus sign, and what is behind the sign. -/
def signed : List Char → Bool × List Char
  | '-' :: cs => (true, cs)
  | '+' :: cs => (false, cs)
  | cs => (false, cs)

def integer? (cs : List Char) : Option (Bool × List Char) :=
  let digits := (signed cs).2.takeWhile isDigit
  if digits.isEmpty then none else some ((signed cs).1, digits)

/-- The number that a sign and digits stand for. -/
def rounded (negative : Bool) (digits : List Char) : Double :=
  .nearest negative (digitsValue digits) 1

/-- What `parseInt(text, 10)` gives. -/
def parseInt (cs : List Char) : Double :=
  match integer? (cs.dropWhile isScriptBlank) with
  | none => .nan
  | some (negative, digits) => rounded negative digits

/-! ### Scripts -/

inductive Expr where
  | name (n : String)
  | text (s : String)
  | nan
  | typeOf (e : Expr)
  | same (a b : Expr)
  | isNaN (e : Expr)
  | parseInt (e : Expr)
  | choose (condition a b : Expr)

inductive Stmt where
  | returnIf (condition e : Expr)
  | const (n : String) (e : Expr)
  /-- Throws a message that ends in what a name stands for. -/
  | throwIf (condition : Expr) (message shown : String)
  | give (e : Expr)

def Expr.source : Expr → String
  | .name n => n
  | .text s => Text.quoted s
  | .nan => "NaN"
  | .typeOf e => "typeof " ++ e.source
  | .same a b => a.source ++ " === " ++ b.source
  | .isNaN e => "isNaN(" ++ e.source ++ ")"
  | .parseInt e => "parseInt(" ++ e.source ++ ", 10)"
  | .choose condition a b => condition.source ++ " ? " ++ a.source ++ " : " ++ b.source

def Stmt.lines : Stmt → List String
  | .returnIf condition e =>
    ["if (" ++ condition.source ++ ")", "    return " ++ e.source ++ ";"]
  | .const n e => ["const " ++ n ++ " = " ++ e.source ++ ";"]
  | .throwIf condition message shown =>
    ["if (" ++ condition.source ++ ")",
      "    throw new TypeError(" ++ Text.quoted message ++ " + " ++ shown ++ ");"]
  | .give e => ["return " ++ e.source ++ ";"]

def source (body : List Stmt) : String := "\n".intercalate (body.flatMap Stmt.lines)

/-- The value of an expression, if its names are known and its operators are used on the types that
they are for. -/
def Expr.eval (env : List (String × Value)) : Expr → Option Value
  | .name n => Fields.get? n env
  | .text s => some (.string s)
  | .nan => some (.number .nan)
  | .typeOf e => do return .string (← e.eval env).tag.text
  | .same a b => do
    match ← a.eval env, ← b.eval env with
    | .string s, .string s' => some (.bool (s == s'))
    | _, _ => none
  | .isNaN e => do
    match ← e.eval env with
    | .number d => some (.bool (d == .nan))
    | _ => none
  | .parseInt e => do
    match ← e.eval env with
    | .string s => some (.number (Routine.parseInt s.toList))
    | _ => none
  | .choose condition a b => do
    match ← condition.eval env with
    | .bool true => a.eval env
    | .bool false => b.eval env
    | _ => none

inductive Outcome where
  | returned (v : Value)
  | threw

/-- Runs a routine. Nothing comes of one that uses an operator on a type that it is not for. -/
def run (env : List (String × Value)) : List Stmt → Option Outcome
  | [] => some (.returned .undefined)
  | .returnIf condition e :: rest => do
    match ← condition.eval env with
    | .bool true => return .returned (← e.eval env)
    | .bool false => run env rest
    | _ => none
  | .const n e :: rest => do run ((n, ← e.eval env) :: env) rest
  | .throwIf condition _ _ :: rest => do
    match ← condition.eval env with
    | .bool true => some .threw
    | .bool false => run env rest
    | _ => none
  | .give e :: _ => do return .returned (← e.eval env)

section run

variable {env : List (String × Value)} {condition e : Expr} {v : Value} {n message shown : String}

theorem run_returnIf_true (hc : condition.eval env = some (.bool true)) (he : e.eval env = some v)
    (rest : List Stmt) : run env (.returnIf condition e :: rest) = some (.returned v) := by
  simp [run, hc, he]

theorem run_returnIf_false (hc : condition.eval env = some (.bool false)) (rest : List Stmt) :
    run env (.returnIf condition e :: rest) = run env rest := by
  simp [run, hc]

theorem run_const (he : e.eval env = some v) (rest : List Stmt) :
    run env (.const n e :: rest) = run ((n, v) :: env) rest := by
  simp [run, he]

theorem run_throwIf_true (hc : condition.eval env = some (.bool true)) (rest : List Stmt) :
    run env (.throwIf condition message shown :: rest) = some .threw := by
  simp [run, hc]

theorem run_throwIf_false (hc : condition.eval env = some (.bool false)) (rest : List Stmt) :
    run env (.throwIf condition message shown :: rest) = run env rest := by
  simp [run, hc]

theorem run_give (he : e.eval env = some v) (rest : List Stmt) :
    run env (.give e :: rest) = some (.returned v) := by
  simp [run, he]

end run

end Conform.Routine
