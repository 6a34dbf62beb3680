import Mathlib.Data.List.TakeWhile
import Conform.Proofs.Text.Blank
import Conform.Proofs.Transform.Routine

/-! The conversion of texts to integers, as a transform and as the script of its routine. The two
agree on every value but texts where one skips a blank that is none to the other. -/

namespace Conform

namespace Routine

variable {cs digits rest : List Char} {negative : Bool} {c : Char}

theorem signed_of_ne (h : c ≠ '-') (h' : c ≠ '+') (rest : List Char) :
    signed (c :: rest) = (false, c :: rest) := by
  unfold signed
  split
  · rename_i hc
    exact absurd (List.cons.inj hc).1 h
  · rename_i hc
    exact absurd (List.cons.inj hc).1 h'
  · rfl

/-- What begins with no sign and with no digit has no integer. -/
theorem integer?_of_ne (h : c ≠ '-') (h' : c ≠ '+') (hd : isDigit c = false) (rest : List Char) :
    integer? (c :: rest) = none := by
  simp [integer?, signed_of_ne h h', hd]

/-- Whether a text begins with an integer: a sign, if there is one, and all the digits behind. -/
def Begins (cs : List Char) (negative : Bool) (digits : List Char) : Prop :=
  ∃ sign rest, cs = sign ++ (digits ++ rest) ∧
    (sign, negative) ∈ [(['-'], true), (['+'], false), ([], false)] ∧
    digits ≠ [] ∧ (∀ c ∈ digits, isDigit c) ∧ Text.Ends isDigit rest

theorem exists_sign (cs : List Char) : ∃ sign, cs = sign ++ (signed cs).2 ∧
    (sign, (signed cs).1) ∈ [(['-'], true), (['+'], false), ([], false)] := by
  unfold signed
  split
  · exact ⟨['-'], rfl, by simp⟩
  · exact ⟨['+'], rfl, by simp⟩
  · exact ⟨[], rfl, by simp⟩

theorem signed_append {sign : List Char}
    (hs : (sign, negative) ∈ [(['-'], true), (['+'], false), ([], false)]) (hd : isDigit c)
    (rest : List Char) : signed (sign ++ c :: rest) = (negative, c :: rest) := by
  have hminus : c ≠ '-' := by
    rintro rfl
    cases hd
  have hplus : c ≠ '+' := by
    rintro rfl
    cases hd
  simp only [List.mem_cons, Prod.mk.injEq, List.not_mem_nil, or_false] at hs
  rcases hs with ⟨rfl, rfl⟩ | ⟨rfl, rfl⟩ | ⟨rfl, rfl⟩
  · rfl
  · rfl
  · exact signed_of_ne hminus hplus rest

theorem integer?_iff : integer? cs = some (negative, digits) ↔ Begins cs negative digits := by
  constructor
  · intro h
    obtain ⟨sign, hcs, hsign⟩ := exists_sign cs
    simp only [integer?] at h
    split_ifs at h with hempty
    obtain ⟨hneg, hdigits⟩ := Prod.mk.inj (Option.some.inj h)
    subst hneg hdigits
    refine ⟨sign, (signed cs).2.dropWhile isDigit, ?_, hsign, by simpa using hempty,
      fun c hc => List.mem_takeWhile_imp hc, Text.ends_dropWhile isDigit _⟩
    rw [List.takeWhile_append_dropWhile]
    exact hcs
  · rintro ⟨sign, rest, rfl, hsign, hne, hdigits, hrest⟩
    obtain ⟨c, ds, rfl⟩ := List.exists_cons_of_ne_nil hne
    have hc : isDigit c := hdigits c List.mem_cons_self
    have hrun := Text.takeWhile_run hdigits hrest
    simp only [integer?, List.cons_append, signed_append hsign hc]
    rw [← List.cons_append, hrun]
    rfl

/-! ### Blanks -/

/-- Whether characters of a kind are skipped before an integer and are no part of one. -/
structure Blanks (p : Char → Bool) : Prop where
  minus : p '-' = false
  plus : p '+' = false
  digit : ∀ c, isDigit c → p c = false

variable {p : Char → Bool}

theorem blanks_isBlank : Blanks Text.isBlank := ⟨rfl, rfl, fun _ => Text.isBlank_of_isDigit⟩

theorem isScriptBlank_of_isDigit (h : isDigit c) : isScriptBlank c = false := by
  have := isDigit_iff.1 h
  simp only [isScriptBlank, Bool.or_eq_false_iff, Bool.and_eq_false_iff, decide_eq_false_iff_not,
    beq_eq_false_iff_ne]
  omega

theorem blanks_isScriptBlank : Blanks isScriptBlank := ⟨rfl, rfl, fun _ => isScriptBlank_of_isDigit⟩

theorem Blanks.integer?_eq_none (hp : Blanks p) (hc : p c) (rest : List Char) :
    integer? (c :: rest) = none := by
  apply integer?_of_ne
  · rintro rfl
    simp [hp.minus] at hc
  · rintro rfl
    simp [hp.plus] at hc
  · by_contra hd
    simp [hp.digit c (by simpa using hd)] at hc

theorem isBlank_ne (h : Text.isBlank c) (h' : isScriptBlank c = false) : c = '\u0085' := by
  have hn : c.toNat = 0x85 := by
    simp only [Text.isBlank, isScriptBlank, Bool.or_eq_true, Bool.and_eq_true,
      Bool.or_eq_false_iff, Bool.and_eq_false_iff, decide_eq_true_iff, decide_eq_false_iff_not,
      beq_iff_eq, beq_eq_false_iff_ne] at h h'
    omega
  rw [← Char.ofNat_toNat c, hn]

theorem isScriptBlank_ne (h : isScriptBlank c) (h' : Text.isBlank c = false) : c = '\ufeff' := by
  have hn : c.toNat = 0xFEFF := by
    simp only [Text.isBlank, isScriptBlank, Bool.or_eq_true, Bool.and_eq_true,
      Bool.or_eq_false_iff, Bool.and_eq_false_iff, decide_eq_true_iff, decide_eq_false_iff_not,
      beq_iff_eq, beq_eq_false_iff_ne] at h h'
    omega
  rw [← Char.ofNat_toNat c, hn]

theorem Begins.ends (hp : Blanks p) (h : Begins cs negative digits) : Text.Ends p cs := by
  obtain ⟨sign, rest, rfl, hsign, hne, hdigits, -⟩ := h
  obtain ⟨c, ds, rfl⟩ := List.exists_cons_of_ne_nil hne
  simp only [List.mem_cons, Prod.mk.injEq, List.not_mem_nil, or_false] at hsign
  rcases hsign with ⟨rfl, rfl⟩ | ⟨rfl, rfl⟩ | ⟨rfl, rfl⟩
  · exact Text.ends_cons hp.minus _
  · exact Text.ends_cons hp.plus _
  · exact Text.ends_cons (hp.digit c (hdigits c List.mem_cons_self)) _

/-- The integer behind blanks of a kind. -/
def behind? (p : Char → Bool) (cs : List Char) : Option (Bool × List Char) :=
  integer? (cs.dropWhile p)

variable {blanks : List Char}

theorem behind?_append (hb : ∀ c ∈ blanks, p c) (rest : List Char) :
    behind? p (blanks ++ rest) = behind? p rest := by
  rw [behind?, List.dropWhile_append_of_pos hb, behind?]

theorem behind?_cons (hc : p c) (rest : List Char) : behind? p (c :: rest) = behind? p rest := by
  have hb : ∀ b ∈ [c], p b := by simpa using hc
  exact behind?_append hb rest

/-- A blank that is none of this kind is no beginning of an integer. -/
theorem behind?_of_other {q : Char → Bool} (hq : Blanks q) (hqc : q c) (hc : p c = false)
    (rest : List Char) : behind? p (c :: rest) = none := by
  rw [behind?, List.dropWhile_cons, hc]
  exact hq.integer?_eq_none hqc rest

theorem behind?_iff (hp : Blanks p) : behind? p cs = some (negative, digits) ↔
    ∃ blanks rest, cs = blanks ++ rest ∧ (∀ c ∈ blanks, p c) ∧ Begins rest negative digits := by
  constructor
  · intro h
    exact ⟨cs.takeWhile p, cs.dropWhile p, List.takeWhile_append_dropWhile.symm,
      fun c hc => List.mem_takeWhile_imp hc, integer?_iff.1 h⟩
  · rintro ⟨blanks, rest, rfl, hb, h⟩
    rw [behind?, Text.dropWhile_run hb (h.ends hp)]
    exact integer?_iff.2 h

/-! ### Integers of scripts -/

/-- What `parseInt(text, 10)` is by its definition: white space is skipped, and an integer that
follows is rounded to the number nearest to it, of its sign. Without one the result is no number. -/
inductive ParsesInt (cs : List Char) : Double → Prop
  | rounded {blanks rest digits : List Char} {negative : Bool} {rank : Nat} :
      cs = blanks ++ rest → (∀ c ∈ blanks, isScriptBlank c) → Begins rest negative digits →
      Double.RoundsTo rank (digitsValue digits * Double.unitsInOne) →
      ParsesInt cs (.ofRank negative rank)
  | nan : (∀ blanks rest negative digits, cs = blanks ++ rest → (∀ c ∈ blanks, isScriptBlank c) →
      ¬Begins rest negative digits) → ParsesInt cs .nan

theorem exists_rounded (negative : Bool) (digits : List Char) :
    ∃ rank, rounded negative digits = .ofRank negative rank ∧
      Double.RoundsTo rank (digitsValue digits * Double.unitsInOne) := by
  obtain ⟨rank, hrank, hrounds⟩ :=
    Double.nearest_roundsTo negative (digitsValue digits) Nat.one_pos
  rw [Nat.cast_one, div_one] at hrounds
  exact ⟨rank, hrank, hrounds⟩

theorem rounded_ne_nan (negative : Bool) (digits : List Char) : rounded negative digits ≠ .nan := by
  obtain ⟨rank, hrank, -⟩ := exists_rounded negative digits
  rw [hrank, Double.ofRank]
  split_ifs <;> simp

theorem parseInt_eq (cs : List Char) : parseInt cs =
    ((behind? isScriptBlank cs).map fun n => rounded n.1 n.2).getD .nan := by
  rw [parseInt, behind?]
  cases integer? (cs.dropWhile isScriptBlank) with
  | none => rfl
  | some n => rw [Option.map_some, Option.getD_some]

theorem parseInt_none (h : behind? isScriptBlank cs = none) : parseInt cs = .nan := by
  rw [parseInt_eq, h, Option.map_none, Option.getD_none]

theorem parseInt_some (h : behind? isScriptBlank cs = some (negative, digits)) :
    parseInt cs = rounded negative digits := by
  rw [parseInt_eq, h, Option.map_some, Option.getD_some]

theorem parsesInt_iff {d : Double} : ParsesInt cs d ↔ parseInt cs = d := by
  constructor
  · rintro (⟨hcs, hb, hbegins, hrounds⟩ | hno)
    · obtain ⟨rank, hrank, hrounds'⟩ := exists_rounded _ _
      rw [parseInt_some ((behind?_iff blanks_isScriptBlank).2 ⟨_, _, hcs, hb, hbegins⟩), hrank,
        hrounds'.unique hrounds]
    · apply parseInt_none
      by_contra hsome
      obtain ⟨⟨negative, digits⟩, hn⟩ := Option.ne_none_iff_exists'.1 hsome
      obtain ⟨blanks, rest, hcs, hb, hbegins⟩ := (behind?_iff blanks_isScriptBlank).1 hn
      exact hno blanks rest negative digits hcs hb hbegins
  · rintro rfl
    cases h : behind? isScriptBlank cs with
    | none =>
      rw [parseInt_none h]
      refine .nan fun blanks rest negative digits hcs hb hbegins => ?_
      rw [(behind?_iff blanks_isScriptBlank).2 ⟨blanks, rest, hcs, hb, hbegins⟩] at h
      cases h
    | some n =>
      obtain ⟨negative, digits⟩ := n
      obtain ⟨blanks, rest, hcs, hb, hbegins⟩ := (behind?_iff blanks_isScriptBlank).1 h
      obtain ⟨rank, hrank, hrounds⟩ := exists_rounded negative digits
      rw [parseInt_some h, hrank]
      exact .rounded hcs hb hbegins hrounds

end Routine

namespace Builtin

open Routine

theorem ofDecimal_zero (negative : Bool) (n : Nat) :
    Double.ofDecimal negative n 0 = .nearest negative n 1 := by
  unfold Double.ofDecimal
  split_ifs with h0 hpos hreach
  · rw [h0]
  · exact absurd hreach (Nat.not_lt_zero _)
  · rw [Int.toNat_zero, Nat.pow_zero, Nat.mul_one]
  · exact absurd (Int.le_refl 0) hpos
  · exact absurd (Int.le_refl 0) hpos

theorem leadingInteger?_eq (cs : List Char) : leadingInteger? cs =
    (behind? Text.isBlank cs).map fun n => rounded n.1 n.2 := by
  unfold leadingInteger? behind? integer? signed Text.trimStart
  simp only [ofDecimal_zero]
  -- both look at the sign first, and then for a digit
  split <;> split_ifs <;> simp_all [rounded]

/-! ### Where the two differ -/

/-- Whether a character is skipped by both. -/
def isCommonBlank (c : Char) : Bool := Text.isBlank c && isScriptBlank c

variable {cs blanks : List Char} {c : Char}

theorem behind?_isBlank (hb : ∀ b ∈ blanks, isCommonBlank b) (rest : List Char) :
    behind? Text.isBlank (blanks ++ rest) = behind? Text.isBlank rest :=
  behind?_append (fun b h => (Bool.and_eq_true_iff.1 (hb b h)).1) rest

theorem behind?_isScriptBlank (hb : ∀ b ∈ blanks, isCommonBlank b) (rest : List Char) :
    behind? isScriptBlank (blanks ++ rest) = behind? isScriptBlank rest :=
  behind?_append (fun b h => (Bool.and_eq_true_iff.1 (hb b h)).2) rest

/-- A text that only the transform takes for a number: it skips a next line, which scripts do not. -/
def OnlyTransform (cs : List Char) : Prop :=
  ∃ blanks rest, cs = blanks ++ '\u0085' :: rest ∧ (∀ b ∈ blanks, isCommonBlank b) ∧
    (leadingInteger? rest).isSome

/-- A text that only scripts take for a number: they skip a byte order mark. -/
def OnlyScript (cs : List Char) : Prop :=
  ∃ blanks rest, cs = blanks ++ '\ufeff' :: rest ∧ (∀ b ∈ blanks, isCommonBlank b) ∧
    parseInt rest ≠ .nan

theorem isSome_leadingInteger? : (leadingInteger? cs).isSome ↔ (behind? Text.isBlank cs).isSome := by
  rw [leadingInteger?_eq, Option.isSome_map]

theorem parseInt_ne_nan : parseInt cs ≠ .nan ↔ (behind? isScriptBlank cs).isSome := by
  rw [parseInt_eq]
  cases behind? isScriptBlank cs with
  | none => simp
  | some n =>
    rw [Option.map_some, Option.getD_some]
    exact iff_of_true (rounded_ne_nan n.1 n.2) rfl

theorem OnlyTransform.behind (h : OnlyTransform cs) :
    (behind? Text.isBlank cs).isSome ∧ behind? isScriptBlank cs = none := by
  obtain ⟨blanks, rest, rfl, hb, hrest⟩ := h
  rw [behind?_isBlank hb, behind?_isScriptBlank hb, behind?_cons rfl]
  exact ⟨isSome_leadingInteger?.1 hrest, behind?_of_other blanks_isBlank rfl rfl rest⟩

theorem OnlyScript.behind (h : OnlyScript cs) :
    behind? Text.isBlank cs = none ∧ (behind? isScriptBlank cs).isSome := by
  obtain ⟨blanks, rest, rfl, hb, hrest⟩ := h
  rw [behind?_isBlank hb, behind?_isScriptBlank hb]
  refine ⟨behind?_of_other blanks_isScriptBlank rfl rfl rest, ?_⟩
  rw [behind?_cons rfl]
  exact parseInt_ne_nan.1 hrest

/-- The first character that is not skipped by both decides. -/
theorem behind?_eq (ht : ¬OnlyTransform cs) (hs : ¬OnlyScript cs) :
    behind? Text.isBlank cs = behind? isScriptBlank cs := by
  have hb : ∀ b ∈ cs.takeWhile isCommonBlank, isCommonBlank b := fun b h => List.mem_takeWhile_imp h
  have hends := Text.ends_dropWhile isCommonBlank cs
  have hcs : cs = cs.takeWhile isCommonBlank ++ cs.dropWhile isCommonBlank :=
    List.takeWhile_append_dropWhile.symm
  generalize cs.takeWhile isCommonBlank = blanks at hb hcs
  generalize cs.dropWhile isCommonBlank = rest at hends hcs
  subst hcs
  rw [behind?_isBlank hb, behind?_isScriptBlank hb]
  cases rest with
  | nil => rfl
  | cons c rest =>
    have hc : isCommonBlank c = false := by simpa using hends c rfl
    cases hblank : Text.isBlank c with
    | true =>
      have hscript : isScriptBlank c = false := by simpa [isCommonBlank, hblank] using hc
      rw [behind?_of_other blanks_isBlank hblank hscript, behind?_cons hblank,
        ← Option.not_isSome_iff_eq_none, ← isSome_leadingInteger?]
      obtain rfl := isBlank_ne hblank hscript
      exact fun hrest => ht ⟨blanks, rest, rfl, hb, hrest⟩
    | false =>
      cases hscript : isScriptBlank c with
      | true =>
        rw [behind?_of_other blanks_isScriptBlank hscript hblank, behind?_cons hscript, eq_comm,
          ← Option.not_isSome_iff_eq_none, ← parseInt_ne_nan]
        obtain rfl := isScriptBlank_ne hscript hblank
        exact fun hrest => hs ⟨blanks, rest, rfl, hb, hrest⟩
      | false =>
        rw [behind?, behind?, List.dropWhile_cons, List.dropWhile_cons, hblank, hscript]
        rfl

/-! ### The routine -/

/-- The statements of the routine. -/
def intStringBody : List Routine.Stmt :=
  [.returnIf (.same (.typeOf (.name "value")) (.text "number")) (.name "value"),
    .const "i" (.choose (.same (.typeOf (.name "value")) (.text "string"))
      (.parseInt (.name "value")) .nan),
    .throwIf (.isNaN (.name "i")) "Unable to convert to number. value: " "value",
    .give (.name "i")]

theorem source_intStringBody : Routine.source intStringBody = intString.source := by decide +kernel

/-- Runs the routine on a value. -/
def runIntString (v : Value) : Option Outcome := run [("value", v)] intStringBody

/-- The number that the routine calls `i`. -/
def scriptInteger : Value → Double
  | .string s => parseInt s.toList
  | _ => .nan

theorem scriptInteger_of_ne {v : Value} (h : ∀ s, v ≠ .string s) : scriptInteger v = .nan := by
  cases v with
  | string s => exact absurd rfl (h s)
  | _ => rfl

theorem eval_scriptInteger (v : Value) :
    Expr.eval [("value", v)] (.choose (.same (.typeOf (.name "value")) (.text "string"))
      (.parseInt (.name "value")) .nan) = some (.number (scriptInteger v)) := by
  cases v with
  | string s => rfl
  | _ => rfl

theorem runIntString_number (d : Double) :
    runIntString (.number d) = some (.returned (.number d)) :=
  run_returnIf_true rfl rfl _

theorem runIntString_eq {v : Value} (h : v.tag ≠ .number) : runIntString v =
    some (if scriptInteger v = .nan then .threw else .returned (.number (scriptInteger v))) := by
  have hnumber : Expr.eval [("value", v)] (.same (.typeOf (.name "value")) (.text "number"))
      = some (.bool false) := by
    cases v with
    | number d => exact absurd rfl h
    | _ => rfl
  rw [runIntString, intStringBody, run_returnIf_false hnumber, run_const (eval_scriptInteger v)]
  generalize scriptInteger v = i
  cases i with
  | nan => exact run_throwIf_true rfl _
  | infinite negative => exact (run_throwIf_false rfl _).trans (run_give rfl _)
  | finite negative rank => exact (run_throwIf_false rfl _).trans (run_give rfl _)

theorem runIntString_none {s : String} (h : behind? isScriptBlank s.toList = none) :
    runIntString (.string s) = some .threw := by
  rw [runIntString_eq (by simp [Value.tag]), scriptInteger, if_pos (parseInt_none h)]

theorem runIntString_some {s : String} {n : Bool × List Char}
    (h : behind? isScriptBlank s.toList = some n) :
    runIntString (.string s) = some (.returned (.number (rounded n.1 n.2))) := by
  have hparse : scriptInteger (.string s) = rounded n.1 n.2 := parseInt_some h
  rw [runIntString_eq (by simp [Value.tag]), hparse, if_neg (rounded_ne_nan n.1 n.2)]

theorem intStringOf_none {s : String} (h : behind? Text.isBlank s.toList = none) :
    intStringOf (.string s) = .error (numberRefusal s) := by
  rw [intStringOf, leadingInteger?_eq, h, Option.map_none]

theorem intStringOf_some {s : String} {n : Bool × List Char}
    (h : behind? Text.isBlank s.toList = some n) :
    intStringOf (.string s) = .ok (.number (rounded n.1 n.2)) := by
  rw [intStringOf, leadingInteger?_eq, h, Option.map_some]

/-- Whether the transform gives a value exactly if the routine returns it. -/
def Agrees (v : Value) : Prop :=
  ∀ w, intString.transform v = .ok w ↔ runIntString v = some (.returned w)

theorem agrees_of_behind {s : String}
    (h : behind? Text.isBlank s.toList = behind? isScriptBlank s.toList) : Agrees (.string s) := by
  intro w
  rw [transform]
  cases hn : behind? isScriptBlank s.toList with
  | none => simp [intStringOf_none (h.trans hn), runIntString_none hn]
  | some n => simp [intStringOf_some (h.trans hn), runIntString_some hn]

theorem agrees_of_not_string {v : Value} (h : ∀ s, v ≠ .string s) : Agrees v := by
  intro w
  cases v with
  | string s => exact absurd rfl (h s)
  | number d => simp [transform, intStringOf, runIntString_number]
  | _ =>
    rw [runIntString_eq (by simp [Value.tag]), scriptInteger_of_ne h, if_pos rfl]
    simp [transform, intStringOf]

theorem OnlyTransform.runs {s : String} (h : OnlyTransform s.toList) :
    (∃ d, intString.transform (.string s) = .ok (.number d)) ∧
      runIntString (.string s) = some .threw := by
  obtain ⟨hsome, hnone⟩ := h.behind
  obtain ⟨n, hn⟩ := Option.isSome_iff_exists.1 hsome
  exact ⟨⟨_, intStringOf_some hn⟩, runIntString_none hnone⟩

theorem OnlyScript.runs {s : String} (h : OnlyScript s.toList) :
    intString.transform (.string s) = .error (numberRefusal s) ∧
      ∃ d, runIntString (.string s) = some (.returned (.number d)) := by
  obtain ⟨hnone, hsome⟩ := h.behind
  obtain ⟨n, hn⟩ := Option.isSome_iff_exists.1 hsome
  exact ⟨intStringOf_none hnone, _, runIntString_some hn⟩

theorem agrees_iff {v : Value} :
    Agrees v ↔ ∀ s, v = .string s → ¬OnlyTransform s.toList ∧ ¬OnlyScript s.toList := by
  constructor
  · rintro ha s rfl
    constructor
    · intro h
      obtain ⟨⟨d, hd⟩, hthrew⟩ := h.runs
      rw [ha, hthrew] at hd
      cases hd
    · intro h
      obtain ⟨hrefused, d, hd⟩ := h.runs
      rw [← ha, hrefused] at hd
      cases hd
  · intro h
    cases v with
    | string s => exact agrees_of_behind (behind?_eq (h s rfl).1 (h s rfl).2)
    | _ => exact agrees_of_not_string (by simp)

/-- The transform does what the script of the routine does, where `parseInt` is what its definition
says, but for texts with a next line or a byte order mark among the blanks before their integer:
only the transform takes the former for numbers, and only the routine the latter. -/
theorem intString_faces (v : Value) :
    Routine.source intStringBody = intString.source ∧
    (∀ cs d, ParsesInt cs d ↔ parseInt cs = d) ∧
    (runIntString v).isSome ∧
    (Agrees v ↔ ∀ s, v = .string s → ¬OnlyTransform s.toList ∧ ¬OnlyScript s.toList) ∧
    ∀ s, v = .string s →
      (OnlyTransform s.toList →
        (∃ d, intString.transform v = .ok (.number d)) ∧ runIntString v = some .threw) ∧
      (OnlyScript s.toList → intString.transform v = .error (numberRefusal s) ∧
        ∃ d, runIntString v = some (.returned (.number d))) := by
  refine ⟨source_intStringBody, fun cs d => parsesInt_iff, ?_, agrees_iff, ?_⟩
  · by_cases hnumber : v.tag = .number
    · cases v with
      | number d => rw [runIntString_number, Option.isSome_some]
      | _ => cases hnumber
    · rw [runIntString_eq hnumber, Option.isSome_some]
  · rintro s rfl
    exact ⟨fun h => h.runs, fun h => h.runs⟩

/-- A number of pixels behind a blank. -/
theorem intString_faces_pixels : ¬OnlyTransform " -7px".toList ∧ ¬OnlyScript " -7px".toList ∧
    intString.transform (.string " -7px") = .ok (.number (.ofInt (-7))) ∧
    runIntString (.string " -7px") = some (.returned (.number (.ofInt (-7)))) := by
  have hgiven : behind? Text.isBlank " -7px".toList = some (true, ['7']) := by decide +kernel
  have hreturned : behind? isScriptBlank " -7px".toList = some (true, ['7']) := by decide +kernel
  have hseven : rounded true ['7'] = .ofInt (-7) := by decide +kernel
  have ht : ¬OnlyTransform " -7px".toList :=
    fun h => Option.some_ne_none _ (hreturned.symm.trans h.behind.2)
  have hs : ¬OnlyScript " -7px".toList :=
    fun h => Option.some_ne_none _ (hgiven.symm.trans h.behind.1)
  have hok : intString.transform (.string " -7px") = .ok (.number (.ofInt (-7))) := by
    rw [transform, intStringOf_some hgiven, hseven]
  have hagrees : Agrees (.string " -7px") := by
    refine (intString_faces _).2.2.2.1.2 fun s h => ?_
    obtain rfl := Value.string.inj h
    exact ⟨ht, hs⟩
  exact ⟨ht, hs, hok, (hagrees _).1 hok⟩

/-- A next line before a digit, and a byte order mark before one. -/
theorem intString_differs :
    (∃ d, intString.transform (.string "\u00855") = .ok (.number d)) ∧
      runIntString (.string "\u00855") = some .threw ∧
      intString.transform (.string "\ufeff5") = .error (numberRefusal "\ufeff5") ∧
      (∃ d, runIntString (.string "\ufeff5") = some (.returned (.number d))) ∧
      ¬Agrees (.string "\u00855") ∧ ¬Agrees (.string "\ufeff5") := by
  have hfive : (behind? Text.isBlank ['5']).isSome ∧ (behind? isScriptBlank ['5']).isSome := by
    decide +kernel
  have ht : OnlyTransform "\u00855".toList :=
    ⟨[], ['5'], by decide +kernel, by simp, isSome_leadingInteger?.2 hfive.1⟩
  have hs : OnlyScript "\ufeff5".toList :=
    ⟨[], ['5'], by decide +kernel, by simp, parseInt_ne_nan.2 hfive.2⟩
  exact ⟨ht.runs.1, ht.runs.2, hs.runs.1, hs.runs.2, fun h => (agrees_iff.1 h _ rfl).1 ht,
    fun h => (agrees_iff.1 h _ rfl).2 hs⟩

end Builtin

end Conform
