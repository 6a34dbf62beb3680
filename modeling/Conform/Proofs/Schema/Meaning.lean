import Conform.Value
import Conform.Proofs.Schema.Declared

/-! The values of a type expression, by what is declared and not by how a table is made of it. -/

namespace Conform

def Keyword.Holds : Keyword → Value → Prop
  | .number, v => v.tag = .number
  | .string, v => v.tag = .string
  | .boolean, v => v.tag = .boolean
  | .bigint, v => v.tag = .bigint
  | .null, v => v.isNull
  | .undefined, v => v.tag = .undefined
  | .object, v => v.isNull = false ∧ v.tag = .object
  | .any, _ => True
  -- documents with these do not compile
  | .symbol, _ | .never, _ | .void, _ => False

inductive Form where
  | keyword (k : Keyword)
  | literal (value : Literal)
  | array (element : TypeExpr)
  | union (members : List TypeExpr)
  | record (fields : List (String × TypeExpr))

def Form.isUnion : Form → Bool
  | .union _ => true
  | _ => false

variable {types : Table.Declarations}

/-- What an expression stands for. Where a keyword is declared its name is the declared type, but
for a declared body that is the keyword itself. -/
inductive Reads (types : Table.Declarations) : TypeExpr → Form → Prop
  | keyword {n : String} {k : Keyword} : Fields.get? n types = none → Keyword.ofName? n = some k →
      Reads types (.name n) (.keyword k)
  | body {n : String} {e : TypeExpr} {k : Keyword} : Fields.get? n types = some e →
      e.keyword? = some k → Reads types (.name n) (.keyword k)
  | declared {n : String} {e : TypeExpr} {f : Form} : Fields.get? n types = some e →
      e.keyword? = none → Reads types e f → Reads types (.name n) f
  | literal {l : Literal} : Reads types (.literal l) (.literal l)
  | bigint {text : String} {i : Int} : BigInt.parse? text = some i →
      Reads types (.bigint text) (.literal (.bigint i))
  | array {e : TypeExpr} : Reads types (.array e) (.array e)
  | union {es : List TypeExpr} : Reads types (.union es) (.union es)
  | record {fs : List (String × TypeExpr)} : Reads types (.record fs) (.record fs)

theorem Reads.unique {e : TypeExpr} {f f' : Form} (h : Reads types e f) (h' : Reads types e f') :
    f = f' := by
  induction h with
  | keyword hn hk =>
    cases h' with
    | keyword _ hk' => rw [Option.some.inj (hk.symm.trans hk')]
    | body hd => simp [hn] at hd
    | declared hd => simp [hn] at hd
  | body hd hk =>
    cases h' with
    | keyword hn => simp [hn] at hd
    | body hd' hk' =>
      obtain rfl := Option.some.inj (hd.symm.trans hd')
      rw [Option.some.inj (hk.symm.trans hk')]
    | declared hd' hk' =>
      obtain rfl := Option.some.inj (hd.symm.trans hd')
      simp [hk] at hk'
  | declared hd hk _ ih =>
    cases h' with
    | keyword hn => simp [hn] at hd
    | body hd' hk' =>
      obtain rfl := Option.some.inj (hd.symm.trans hd')
      simp [hk] at hk'
    | declared hd' _ hr =>
      obtain rfl := Option.some.inj (hd.symm.trans hd')
      exact ih hr
  | bigint hi =>
    cases h' with
    | bigint hi' => rw [Option.some.inj (hi.symm.trans hi')]
  | literal | array | union | record =>
    cases h'
    rfl

/-- The values of a type. An array counts as an object without fields where a record is asked
for. -/
inductive Inhabits (types : Table.Declarations) : TypeExpr → Value → Prop
  | keyword {e : TypeExpr} {k : Keyword} {v : Value} : Reads types e (.keyword k) → k.Holds v →
      Inhabits types e v
  | literal {e : TypeExpr} {l : Literal} {v : Value} : Reads types e (.literal l) →
      v.strictEq l → Inhabits types e v
  | array {e element : TypeExpr} {items : List Value} : Reads types e (.array element) →
      (∀ v ∈ items, Inhabits types element v) → Inhabits types e (.array items)
  | union {e member : TypeExpr} {es : List TypeExpr} {v : Value} : Reads types e (.union es) →
      member ∈ es → Inhabits types member v → Inhabits types e v
  | record {e : TypeExpr} {fs : List (String × TypeExpr)} {v : Value} :
      Reads types e (.record fs) → v.isNull = false → v.tag = .object →
      (∀ f ∈ fs, Inhabits types f.2 (v.get f.1)) → Inhabits types e v

/-- What is left of an expression when unions are taken apart. -/
inductive Part (types : Table.Declarations) : TypeExpr → Form → Prop
  | self {e : TypeExpr} {f : Form} : Reads types e f → f.isUnion = false → Part types e f
  | member {e m : TypeExpr} {es : List TypeExpr} {f : Form} : Reads types e (.union es) →
      m ∈ es → Part types m f → Part types e f

/-- Whether nothing is left of an expression: a union without members, or of such unions. -/
def Hollow (types : Table.Declarations) (e : TypeExpr) : Prop := ∀ f, ¬ Part types e f

theorem Hollow.not_inhabits {e : TypeExpr} {v : Value} (h : Hollow types e) :
    ¬ Inhabits types e v := by
  intro hv
  obtain ⟨f, hf⟩ : ∃ f, Part types e f := by
    clear h
    induction hv with
    | keyword hr => exact ⟨_, .self hr rfl⟩
    | literal hr => exact ⟨_, .self hr rfl⟩
    | array hr => exact ⟨_, .self hr rfl⟩
    | union hr hm _ ih =>
      obtain ⟨f, hf⟩ := ih
      exact ⟨f, .member hr hm hf⟩
    | record hr => exact ⟨_, .self hr rfl⟩
  exact h f hf

inductive Reached (types : Table.Declarations) (roots : List TypeExpr) : TypeExpr → Prop
  | root {e : TypeExpr} : e ∈ roots → Reached types roots e
  | element {e element : TypeExpr} : Reached types roots e → Part types e (.array element) →
      Reached types roots element
  | field {e : TypeExpr} {fs : List (String × TypeExpr)} {f : String × TypeExpr} :
      Reached types roots e → Part types e (.record fs) → f ∈ fs → Reached types roots f.2

theorem Reached.trans {roots roots' : List TypeExpr} {e : TypeExpr}
    (hr : ∀ e ∈ roots', Reached types roots e) (h : Reached types roots' e) :
    Reached types roots e := by
  induction h with
  | root he => exact hr _ he
  | element _ hp ih => exact .element ih hp
  | field _ hp hf ih => exact .field ih hp hf

end Conform
