import Conform.Program.Basic
import Conform.Text.Identifier
import Conform.Text.Lines

/-! The TypeScript text of a program. Every item stands on its own, with a blank line between
items. -/

namespace Conform.TypeScript

def indent (depth : Nat) : String := String.join (List.replicate depth "    ")

/-- A line at an indentation. -/
def line (depth : Nat) (s : String) : String := indent depth ++ s ++ "\n"

def openBrace : String := "\x7b"

def closeBrace : String := "\x7d"

/-! ### Expressions -/

def literal : Literal → String
  | .number d => Numeral.script.text d
  | .string s => Text.quoted s
  | .boolean b => if b then "true" else "false"
  | .bigint i => BigInt.text i

def place : Place → String
  | .param => "value"
  | .field base name =>
    if Text.isIdentifier name then place base ++ "." ++ name
    else place base ++ "[" ++ Text.quoted name ++ "]"
  | .item base depth => place base ++ "[" ++ counterName depth ++ "]"

def pathPart : PathPart → String
  | .text s => Text.quoted s
  | .given => "path"
  | .counter depth => counterName depth

def path (p : Path) : String := " + ".intercalate (p.parts.map pathPart)

def test : Test → String
  | .hasTag p tag => "typeof " ++ place p ++ " === \"" ++ tag.text ++ "\""
  | .isObject p => place p ++ " !== null && typeof " ++ place p ++ " === \"object\""
  | .isNull p => place p ++ " === null"
  | .equals p l => place p ++ " === " ++ literal l
  | .isArray p => "Array.isArray(" ++ place p ++ ")"

/-! ### Statements -/

def convert (n : ConversionId) (target : Place) : String :=
  place target ++ " = " ++ conversionName n ++ "(" ++ place target ++ ");"

/-- The message of a failure goes on from its path. -/
def failure (p : Path) (expected : List String) : Path :=
  (Path.append p (.text (" is not " ++ " | ".intercalate expected ++ "."))).folded

def fallback : Fallback → String
  | .convert n target => convert n target
  | .fail p expected => "throw new TypeError(" ++ path (failure p expected) ++ ");"

def loopHead (array : Place) (depth : Nat) : String :=
  let i := counterName depth
  "for (let " ++ i ++ " = 0; " ++ i ++ " < " ++ place array ++ ".length; " ++ i ++ "++) " ++
    openBrace

mutual

def stmt (depth : Nat) : Stmt → String
  | .check bs otherwise =>
    branches depth "if" bs ++ line depth "else" ++ line (depth + 1) (fallback otherwise)
  | .convert n target => line depth (convert n target)
  | .forEach array counter body =>
    line depth (loopHead array counter) ++ block (depth + 1) body ++ line depth closeBrace
  | .call record p at_ =>
    line depth (checkName record ++ "(" ++ place p ++ ", " ++ path at_ ++ ");")

def block (depth : Nat) : List Stmt → String
  | [] => ""
  | s :: ss => stmt depth s ++ block depth ss

/-- Branches, the first under `keyword`. -/
def branches (depth : Nat) (keyword : String) : List Branch → String
  | [] => ""
  | .mk _ t body :: bs =>
    (match body with
      | [] => line depth (keyword ++ " (" ++ test t ++ ") " ++ openBrace ++ " " ++ closeBrace)
      | s :: ss =>
        line depth (keyword ++ " (" ++ test t ++ ") " ++ openBrace) ++
          (stmt (depth + 1) s ++ block (depth + 1) ss) ++ line depth closeBrace) ++
      branches depth "else if" bs

end

/-! ### Items -/

def errorClass : String :=
  line 0 ("export class TypeError implements Error " ++ openBrace) ++
  line 1 "public name = \"TypeError\";" ++
  line 1 ("constructor(public message: string) " ++ openBrace ++ " " ++ closeBrace) ++
  line 1 ("toString() " ++ openBrace) ++
  line 2 "return this.name + \": \" + this.message;" ++
  line 1 closeBrace ++
  closeBrace

def validator (v : Validator) : String :=
  line 0 ("export function " ++ v.name ++ "(value: any): " ++ v.returnType ++ " " ++ openBrace) ++
  block 1 v.body ++
  line 1 ("return <" ++ v.returnType ++ ">value;") ++
  closeBrace

def recordCheck (c : RecordCheck) : String :=
  line 0 ("function " ++ checkName c.record ++ "(value: any, path: string) " ++ openBrace) ++
  block 1 c.body ++
  closeBrace

/-- Lines of a routine are indented, and blank ones are emptied. -/
def bodyLine (cs : List Char) : String :=
  if cs.all Text.isBlank then "\n" else line 1 (String.ofList cs)

def routine (r : Routine) : String :=
  line 0 ("function " ++ conversionName r.conversion ++ "(value: any): " ++ r.resultType ++ " " ++
    openBrace) ++
  String.join ((Text.lines r.body.toList).map bodyLine) ++
  closeBrace

/-- The items of a program below the lines to copy. -/
def items (imports : List String) (p : Program) : List String :=
  (if imports.isEmpty then [] else ["\n".intercalate imports]) ++
  errorClass :: p.validators.map validator ++ p.recordChecks.map recordCheck ++
  p.routines.map routine

/-- The text of items under a line ending. -/
def source (eol : Text.LineEnding) (items : List String) : String :=
  String.ofList (eol.apply ("\n\n".intercalate items ++ "\n").toList)

end Conform.TypeScript
