import Conform.Program.Run
import Conform.Program.TypeScript
import Conform.Proofs.Number.Digits
import Conform.Proofs.Program.Folding
import Conform.Proofs.Text.Quoted
import Conform.Proofs.Text.Runs

/-! Printed paths are sums, and a script works them out from the left: two numbers are added,
anything else is put side by side. A path that begins with text has the value that its text says,
whatever the counters are, because no two of them are ever added. -/

namespace Conform

/-! ### Names of counters -/

def counterDepth? (name : String) : Option Nat :=
  let depth? := match name.toList with
    | 'i' :: d :: ds => some (digitsValue (d :: ds))
    | _ => ["i", "j", "k", "l", "m", "n"].idxOf? name
  depth?.filter fun depth => counterName depth = name

theorem counterName_of_le {depth : Nat} (h : 6 ≤ depth) :
    counterName depth = "i" ++ toString depth := by
  unfold counterName
  rw [List.getElem?_eq_none (by simpa using h)]

theorem counterDepth?_counterName (depth : Nat) :
    counterDepth? (counterName depth) = some depth := by
  rcases Nat.lt_or_ge depth 6 with h | h
  · interval_cases depth <;> decide
  · obtain ⟨d, ds, hds⟩ := List.exists_cons_of_ne_nil (decimalDigits_ne_nil depth)
    have hlist : (counterName depth).toList = 'i' :: d :: ds := by
      rw [counterName_of_le h, String.toList_append, toList_toString_nat, hds]
      rfl
    simp only [counterDepth?, hlist]
    rw [← hds, digitsValue_decimalDigits]
    simp

theorem counterName_injective : Function.Injective counterName := fun m n h =>
  Option.some.inj (by rw [← counterDepth?_counterName m, h, counterDepth?_counterName])

theorem counterName_ne {depth : Nat} {name : String} (h : counterDepth? name = none) :
    counterName depth ≠ name := by
  rintro rfl
  rw [counterDepth?_counterName] at h
  cases h

theorem continuesIdentifier_of_isDigit {c : Char} (h : isDigit c) :
    Text.continuesIdentifier c := by
  rw [Text.continuesIdentifier, Bool.or_eq_true]
  exact Or.inr h

theorem continuesIdentifier_counterName {depth : Nat} {c : Char}
    (h : c ∈ (counterName depth).toList) : Text.continuesIdentifier c := by
  rcases Nat.lt_or_ge depth 6 with hd | hd
  · have hall : ∀ d < 6, (counterName d).toList.all Text.continuesIdentifier := by decide
    exact List.all_eq_true.1 (hall depth hd) c h
  · rw [counterName_of_le hd, String.toList_append, toList_toString_nat, List.mem_append] at h
    rcases h with h | h
    · obtain rfl : c = 'i' := by simpa using h
      decide
    · exact continuesIdentifier_of_isDigit (isDigit_of_mem_decimalDigits h)

namespace TypeScript

/-! ### Sums -/

inductive Operand where
  | number (n : Nat)
  | text (s : String)
  deriving DecidableEq, Repr

def Operand.shown : Operand → String
  | .number n => toString n
  | .text s => s

def Operand.plus : Operand → Operand → Operand
  | .number m, .number n => .number (m + n)
  | x, y => .text (x.shown ++ y.shown)

/-- What the names in a routine stand for: the path that it was given, and the counters. -/
structure Scope where
  given : String
  counter : Nat → Nat

def Scope.value? (scope : Scope) (name : String) : Option Operand :=
  if name = "path" then some (.text scope.given)
  else (counterDepth? name).map fun depth => .number (scope.counter depth)

/-- The operand that a text begins with, and the text behind it. -/
def operand? (scope : Scope) : List Char → Option (Operand × List Char)
  | '"' :: cs => match Json.readString ⟨0, cs⟩ with
    | .ok (s, cursor) => some (.text s, cursor.rest)
    | .error _ => none
  | cs => (scope.value? (String.ofList (cs.takeWhile Text.continuesIdentifier))).map
      fun x => (x, cs.dropWhile Text.continuesIdentifier)

/-- The value of a sum of which the operands before the text add up to `x`. -/
def sumFrom? (scope : Scope) (x : Operand) (cs : List Char) : Option Operand :=
  match cs with
  | [] => some x
  | ' ' :: '+' :: ' ' :: cs => match operand? scope cs with
    | some (y, rest) => if rest.length ≤ cs.length then sumFrom? scope (x.plus y) rest else none
    | none => none
  | _ => none
termination_by cs.length

/-- The value of a text that is a sum. -/
def sum? (scope : Scope) (s : String) : Option Operand :=
  match operand? scope s.toList with
  | some (x, rest) => sumFrom? scope x rest
  | none => none

section

variable (scope : Scope)

def Scope.part (scope : Scope) : PathPart → Operand
  | .text s => .text s
  | .given => .text scope.given
  | .counter depth => .number (scope.counter depth)

theorem shown_part (p : PathPart) :
    (scope.part p).shown = Path.partText scope.given scope.counter p := by
  cases p <;> rfl

/-- No name goes on into this text. -/
def EndsName (rest : List Char) : Prop := Text.Ends Text.continuesIdentifier rest

theorem operand?_name {name rest : List Char} (hne : name ≠ [])
    (hname : ∀ c ∈ name, Text.continuesIdentifier c) (hrest : EndsName rest) :
    operand? scope (name ++ rest) =
      (scope.value? (String.ofList name)).map fun x => (x, rest) := by
  have htake := Text.takeWhile_run hname hrest
  have hdrop := Text.dropWhile_run hname hrest
  obtain ⟨c, cs, rfl⟩ := List.exists_cons_of_ne_nil hne
  have hc : c ≠ '"' := fun h => absurd (hname c List.mem_cons_self) (by rw [h]; decide)
  rw [List.cons_append] at htake hdrop ⊢
  unfold operand?
  split
  · rename_i h
    exact absurd (List.cons.inj h).1 hc
  · rw [htake, hdrop]

/-- A printed operand is read as what it stands for. -/
theorem operand?_pathPart (p : PathPart) {rest : List Char} (hrest : EndsName rest) :
    operand? scope ((pathPart p).toList ++ rest) = some (scope.part p, rest) := by
  cases p with
  | text s =>
    obtain ⟨n, hn⟩ := Text.readString_quoted s 0 rest
    simp [pathPart, Text.quoted, Text.quotedChars, operand?, hn, Scope.part]
  | given =>
    change operand? scope ("path".toList ++ rest) = _
    have hname : "path".toList.all Text.continuesIdentifier := by decide
    rw [operand?_name scope (by decide) (List.all_eq_true.1 hname) hrest]
    rfl
  | counter depth =>
    have hne : (counterName depth).toList ≠ [] := fun h => by
      have hempty := counterDepth?_counterName depth
      rw [← String.ofList_toList (s := counterName depth), h] at hempty
      cases hempty
    have hpath : counterName depth ≠ "path" := counterName_ne (by decide)
    change operand? scope ((counterName depth).toList ++ rest) = _
    rw [operand?_name scope hne (fun _ => continuesIdentifier_counterName) hrest,
      String.ofList_toList, Scope.value?, if_neg hpath, counterDepth?_counterName]
    rfl

/-- Further operands of a printed sum. -/
def further (ps : List PathPart) : List Char :=
  ps.flatMap fun p => " + ".toList ++ (pathPart p).toList

theorem endsName_further (ps : List PathPart) : EndsName (further ps) := by
  cases ps with
  | nil => exact Text.ends_nil
  | cons p ps => exact Text.ends_of_head? (c := ' ') rfl (by decide)

theorem sumFrom?_further (x : Operand) (ps : List PathPart) :
    sumFrom? scope x (further ps) = some (ps.foldl (fun x p => x.plus (scope.part p)) x) := by
  induction ps generalizing x with
  | nil => rw [further, List.flatMap_nil, sumFrom?]; rfl
  | cons p ps ih =>
    change sumFrom? scope x (' ' :: '+' :: ' ' :: ((pathPart p).toList ++ further ps)) = _
    rw [sumFrom?, operand?_pathPart scope p (endsName_further ps)]
    simp only
    rw [if_pos (by simp), ih, List.foldl_cons]

theorem toList_path {path : Path} {p : PathPart} {ps : List PathPart}
    (h : path.parts = p :: ps) : (TypeScript.path path).toList =
      (pathPart p).toList ++ further ps := by
  rw [TypeScript.path, h]
  clear h
  induction ps generalizing p with
  | nil => simp [further]
  | cons q ps ih =>
    rw [List.map_cons, List.map_cons, String.intercalate_cons_cons, String.toList_append,
      String.toList_append, ← List.map_cons, ih, further, further, List.flatMap_cons]
    simp

theorem foldl_plus_text (s : String) (ps : List PathPart) :
    ps.foldl (fun x p => Operand.plus x (scope.part p)) (Operand.text s) =
      Operand.text (s ++ Path.textOf scope.given scope.counter ps) := by
  induction ps generalizing s with
  | nil => simp
  | cons p ps ih =>
    rw [List.foldl_cons, Path.textOf_cons, ← String.append_assoc, ← shown_part scope p, ← ih]
    rfl

/-- The value of a printed path whose first operand is a text. -/
theorem sum?_path {path : Path} {p : PathPart} {ps : List PathPart} (h : path.parts = p :: ps)
    {s : String} (hp : scope.part p = .text s) :
    sum? scope (TypeScript.path path) = some (.text (path.eval scope.given scope.counter)) := by
  rw [sum?, toList_path h, operand?_pathPart scope p (endsName_further ps)]
  simp only
  rw [sumFrom?_further, hp, foldl_plus_text, Path.eval, h, List.map_cons, String.join_cons,
    ← shown_part scope p, hp]
  rfl

end

/-! ### Messages -/

theorem message_mismatch (path : String) (expected : List String) :
    (CheckError.mismatch path expected).message =
      path ++ (" is not " ++ " | ".intercalate expected ++ ".") := by
  change path ++ " is not " ++ " | ".intercalate expected ++ "." = _
  simp only [String.append_assoc]

theorem eval_failure (path : Path) (expected : List String) (given : String)
    (counter : Nat → Nat) : (TypeScript.failure path expected).eval given counter =
      (CheckError.mismatch (path.eval given counter) expected).message := by
  unfold TypeScript.failure
  rw [Path.eval_folded, Path.eval_append, message_mismatch]
  simp [Path.eval, Path.parts, Path.partText]

end TypeScript

end Conform
