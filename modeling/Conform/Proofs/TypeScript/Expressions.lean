import Conform.Proofs.Number.Integers
import Conform.Proofs.Number.Numeral
import Conform.Proofs.TypeScript.Sum

/-! What is printed for places, literals, tests and paths can be read in one way only: where one of
them ends is seen from its text, and its text says what it is. Two tests with the same text hold for
the same values. -/

namespace Conform.TypeScript

/-! ### Paths -/

/-- An operand says what it is, and where it ends. -/
theorem pathPart_append_inj {p q : PathPart} {rest rest' : List Char} (hrest : EndsName rest)
    (hrest' : EndsName rest')
    (h : (pathPart p).toList ++ rest = (pathPart q).toList ++ rest') : p = q ∧ rest = rest' := by
  have hread (scope : Scope) : scope.part p = scope.part q ∧ rest = rest' := by
    have hp := operand?_pathPart scope p hrest
    rw [h, operand?_pathPart scope q hrest'] at hp
    obtain ⟨hpart, hrest⟩ := Prod.mk.inj (Option.some.inj hp)
    exact ⟨hpart.symm, hrest.symm⟩
  refine ⟨?_, (hread ⟨"", id⟩).2⟩
  -- a given path that is longer tells it from a text
  have hlonger (s : String) : s ≠ s ++ "x" := fun h => by
    simpa using congrArg String.length h
  cases p <;> cases q
  case text.text s t => exact congrArg _ (Operand.text.inj (hread ⟨"", id⟩).1)
  case text.given s => exact (hlonger s (Operand.text.inj (hread ⟨s ++ "x", id⟩).1)).elim
  case given.text s => exact (hlonger s (Operand.text.inj (hread ⟨s ++ "x", id⟩).1).symm).elim
  case counter.counter m n => exact congrArg _ (Operand.number.inj (hread ⟨"", id⟩).1)
  case given.given => rfl
  all_goals cases (hread ⟨"", id⟩).1

theorem further_injective : Function.Injective further := by
  intro ps
  induction ps with
  | nil =>
    rintro (_ | ⟨q, qs⟩) h
    · rfl
    · cases h
  | cons p ps ih =>
    rintro (_ | ⟨q, qs⟩) h
    · cases h
    · have h : " + ".toList ++ ((pathPart p).toList ++ further ps) =
          " + ".toList ++ ((pathPart q).toList ++ further qs) := by
        simpa only [further, List.flatMap_cons, List.append_assoc] using h
      obtain ⟨rfl, htail⟩ := pathPart_append_inj (endsName_further ps) (endsName_further qs)
        (List.append_cancel_left h)
      rw [ih htail]

theorem parts_ne_nil (p : Path) : p.parts ≠ [] := by
  induction p with
  | append left right ih _ => exact List.append_ne_nil_of_left_ne_nil ih _
  | _ => exact List.cons_ne_nil _ _

/-- The operands of a path are read off its text. -/
theorem parts_eq_of_path_eq {p q : Path} (h : path p = path q) : p.parts = q.parts := by
  obtain ⟨x, xs, hx⟩ := List.exists_cons_of_ne_nil (parts_ne_nil p)
  obtain ⟨y, ys, hy⟩ := List.exists_cons_of_ne_nil (parts_ne_nil q)
  have h := congrArg String.toList h
  rw [toList_path hx, toList_path hy] at h
  obtain ⟨rfl, htail⟩ := pathPart_append_inj (endsName_further xs) (endsName_further ys) h
  rw [hx, hy, further_injective htail]

theorem eval_eq_of_path_eq {p q : Path} (h : path p = path q) (given : String)
    (counter : Nat → Nat) : p.eval given counter = q.eval given counter := by
  rw [Path.eval, parts_eq_of_path_eq h, Path.eval]

/-! ### Places -/

/-- A step of a place as it is printed. -/
inductive Suffix where
  | field (name : String)
  | item (depth : Nat)

def Suffix.chars : Suffix → List Char
  | .field name => if Text.isIdentifier name then '.' :: name.toList
    else '[' :: (pathPart (.text name)).toList ++ [']']
  | .item depth => '[' :: (pathPart (.counter depth)).toList ++ [']']

def suffixes : Place → List Suffix
  | .param => []
  | .field base name => suffixes base ++ [.field name]
  | .item base depth => suffixes base ++ [.item depth]

theorem suffixes_injective : Function.Injective suffixes := by
  intro p
  induction p with
  | param => rintro (_ | _ | _) h <;> simp_all [suffixes]
  | field base name ih =>
    rintro (_ | ⟨base', name'⟩ | _) h
    · simp [suffixes] at h
    · simp only [suffixes, List.append_singleton_inj, Suffix.field.injEq] at h
      rw [ih h.1, h.2]
    · simp [suffixes] at h
  | item base depth ih =>
    rintro (_ | _ | ⟨base', depth'⟩) h
    · simp [suffixes] at h
    · simp [suffixes] at h
    · simp only [suffixes, List.append_singleton_inj, Suffix.item.injEq] at h
      rw [ih h.1, h.2]

theorem toList_place (p : Place) :
    (place p).toList = "value".toList ++ (suffixes p).flatMap Suffix.chars := by
  induction p with
  | param => rfl
  | field base name ih =>
    rw [place, suffixes, List.flatMap_append, ← List.append_assoc, ← ih]
    split_ifs with h <;> simp [Suffix.chars, pathPart, h]
  | item base depth ih =>
    rw [place, suffixes, List.flatMap_append, ← List.append_assoc, ← ih]
    simp [Suffix.chars, pathPart]

theorem continuesIdentifier_of_isIdentifier {name : String} (h : Text.isIdentifier name) :
    ∀ c ∈ name.toList, Text.continuesIdentifier c := by
  unfold Text.isIdentifier at h
  split at h
  · cases h
  · rename_i c cs hname
    rw [Bool.and_eq_true] at h
    rw [hname]
    rintro d hd
    rcases List.mem_cons.1 hd with rfl | hd
    · rw [Text.continuesIdentifier, h.1, Bool.true_or]
    · exact List.all_eq_true.1 h.2 d hd

theorem bracket_append_inj {p q : PathPart} {rest rest' : List Char}
    (h : '[' :: (pathPart p).toList ++ [']'] ++ rest =
      '[' :: (pathPart q).toList ++ [']'] ++ rest') : p = q ∧ rest = rest' := by
  have hclose (cs : List Char) : EndsName (']' :: cs) := Text.ends_cons (by decide) cs
  simp only [List.cons_append, List.append_assoc, List.nil_append, List.cons.injEq, true_and] at h
  obtain ⟨hpart, hrest⟩ := pathPart_append_inj (hclose rest) (hclose rest') h
  exact ⟨hpart, (List.cons.inj hrest).2⟩

theorem suffix_append_inj {x y : Suffix} {rest rest' : List Char} (hrest : EndsName rest)
    (hrest' : EndsName rest') (h : x.chars ++ rest = y.chars ++ rest') : x = y ∧ rest = rest' := by
  cases x with
  | field name =>
    cases y with
    | field name' =>
      simp only [Suffix.chars] at h
      split_ifs at h with hn hn' hn'
      · obtain ⟨hname, hrest⟩ := Text.run_append_inj (continuesIdentifier_of_isIdentifier hn)
          (continuesIdentifier_of_isIdentifier hn') hrest hrest' (List.cons.inj h).2
        exact ⟨by rw [String.toList_injective hname], hrest⟩
      · cases h
      · cases h
      · obtain ⟨hname, hrest⟩ := bracket_append_inj h
        exact ⟨by rw [PathPart.text.inj hname], hrest⟩
    | item depth =>
      simp only [Suffix.chars] at h
      split_ifs at h with hn
      · cases h
      · cases (bracket_append_inj h).1
  | item depth =>
    cases y with
    | field name =>
      simp only [Suffix.chars] at h
      split_ifs at h with hn
      · cases h
      · cases (bracket_append_inj h).1
    | item depth' =>
      obtain ⟨hdepth, hrest⟩ := bracket_append_inj h
      exact ⟨by rw [PathPart.counter.inj hdepth], hrest⟩

/-- Whether a text goes on with neither a name nor a further step. -/
def EndsPlace (rest : List Char) : Prop :=
  Text.Ends (fun c => Text.continuesIdentifier c || c == '.' || c == '[') rest

theorem EndsPlace.endsName {rest : List Char} (h : EndsPlace rest) : EndsName rest :=
  fun c hc hcont => h c hc (by simp [hcont])

theorem exists_chars_cons (x : Suffix) :
    ∃ c cs, x.chars = c :: cs ∧ (c = '.' ∨ c = '[') := by
  cases x with
  | field name =>
    rw [Suffix.chars]
    split_ifs
    · exact ⟨_, _, rfl, Or.inl rfl⟩
    · exact ⟨_, _, rfl, Or.inr rfl⟩
  | item depth => exact ⟨_, _, rfl, Or.inr rfl⟩

theorem endsName_suffixes {rest : List Char} (h : EndsPlace rest) (xs : List Suffix) :
    EndsName (xs.flatMap Suffix.chars ++ rest) := by
  cases xs with
  | nil => exact h.endsName
  | cons x xs =>
    obtain ⟨c, cs, hx, hc⟩ := exists_chars_cons x
    rw [List.flatMap_cons, hx, List.cons_append, List.cons_append]
    rcases hc with rfl | rfl
    · exact Text.ends_cons (by decide) _
    · exact Text.ends_cons (by decide) _

theorem not_endsPlace_suffix (x : Suffix) (rest : List Char) : ¬EndsPlace (x.chars ++ rest) := by
  obtain ⟨c, cs, hx, hc⟩ := exists_chars_cons x
  rw [hx]
  intro h
  refine h c rfl ?_
  rcases hc with rfl | rfl <;> decide

theorem suffixes_append_inj {xs ys : List Suffix} {rest rest' : List Char} (hrest : EndsPlace rest)
    (hrest' : EndsPlace rest')
    (h : xs.flatMap Suffix.chars ++ rest = ys.flatMap Suffix.chars ++ rest') :
    xs = ys ∧ rest = rest' := by
  induction xs generalizing ys with
  | nil =>
    cases ys with
    | nil => exact ⟨rfl, h⟩
    | cons y ys =>
      rw [List.flatMap_nil, List.nil_append, List.flatMap_cons, List.append_assoc] at h
      exact absurd (h ▸ hrest) (not_endsPlace_suffix y _)
  | cons x xs ih =>
    cases ys with
    | nil =>
      rw [List.flatMap_nil, List.nil_append, List.flatMap_cons, List.append_assoc] at h
      exact absurd (h ▸ hrest') (not_endsPlace_suffix x _)
    | cons y ys =>
      rw [List.flatMap_cons, List.flatMap_cons, List.append_assoc, List.append_assoc] at h
      obtain ⟨rfl, htail⟩ := suffix_append_inj (endsName_suffixes hrest xs)
        (endsName_suffixes hrest' ys) h
      obtain ⟨rfl, hrest⟩ := ih htail
      exact ⟨rfl, hrest⟩

/-- A place says what it is, and where it ends. -/
theorem place_append_inj {p q : Place} {s t : String} (hs : EndsPlace s.toList)
    (ht : EndsPlace t.toList) (h : place p ++ s = place q ++ t) : p = q ∧ s = t := by
  have h := congrArg String.toList h
  rw [String.toList_append, String.toList_append, toList_place, toList_place, List.append_assoc,
    List.append_assoc] at h
  obtain ⟨hsuffixes, hrest⟩ := suffixes_append_inj hs ht (List.append_cancel_left h)
  exact ⟨suffixes_injective hsuffixes, String.toList_injective hrest⟩

theorem place_injective : Function.Injective place := fun p q h =>
  (place_append_inj (s := "") (t := "") Text.ends_nil Text.ends_nil (by rw [h])).1

theorem endsPlace_space {s : String} (hs : s.toList.head? = some ' ') : EndsPlace s.toList :=
  Text.ends_of_head? hs (by decide)

theorem head?_place_append (p : Place) (s : String) :
    (place p ++ s).toList.head? = some 'v' := by
  rw [String.toList_append, toList_place]
  rfl

/-! ### Literals -/

/-- What a literal is a literal of. -/
def tagOf : Literal → TypeTag
  | .number _ => .number
  | .string _ => .string
  | .boolean _ => .boolean
  | .bigint _ => .bigint

/-- What a text is a literal of is seen from its ends. A null is none. -/
def literalTag? (s : String) : Option TypeTag :=
  if s.toList.head? = some 'n' then none
  else if s.toList.head? = some '"' then some .string
  else if s.toList.head? = some 't' ∨ s.toList.head? = some 'f' then some .boolean
  else if s.toList.getLast? = some 'n' then some .bigint
  else some .number

theorem literalTag?_of_mem {s : String}
    (h : ∀ c ∈ s.toList, isDigit c ∨ c ∈ ['.', 'e', '+', '-']) :
    literalTag? s = some .number := by
  have hne {c d : Char} (hc : c ∈ s.toList) (hd : isDigit d = false)
      (hd' : d ∉ ['.', 'e', '+', '-']) : c ≠ d := by
    rcases h c hc with hc | hc
    · exact Numeral.ne_of_isDigit hd hc
    · rintro rfl
      exact hd' hc
  have hhead {d : Char} (hd : isDigit d = false) (hd' : d ∉ ['.', 'e', '+', '-']) :
      s.toList.head? ≠ some d := fun h => hne (List.mem_of_head? h) hd hd' rfl
  rw [literalTag?, if_neg (hhead (by decide) (by decide)), if_neg (hhead (by decide) (by decide)),
    if_neg (not_or.2 ⟨hhead (by decide) (by decide), hhead (by decide) (by decide)⟩),
    if_neg fun h => hne (List.mem_of_getLast? h) (by decide) (by decide) rfl]

theorem literalTag?_literal (l : Literal) : literalTag? (literal l) = some (tagOf l) := by
  cases l with
  | number d =>
    cases d with
    | nan => decide
    | infinite negative => cases negative <;> decide
    | finite negative rank =>
      refine literalTag?_of_mem fun c hc => ?_
      rw [literal, Numeral.text, String.toList_ofList, Numeral.chars_finite] at hc
      obtain ⟨x, hwritten, -⟩ := Numeral.script.exists_written_unsigned rank
      rcases Numeral.mem_signed hc with rfl | hc
      · simp
      · exact hwritten.mem hc
  | string s =>
    have hhead : (literal (.string s)).toList.head? = some '"' := by
      simp [literal, Text.quoted, Text.quotedChars]
    rw [literalTag?, hhead, if_neg (by decide), if_pos rfl]
    rfl
  | boolean b => cases b <;> decide
  | bigint i =>
    have hhead {c : Char} (hc : isDigit c = false) (hm : c ≠ '-') :
        (literal (.bigint i)).toList.head? ≠ some c := BigInt.head?_text_ne i hc hm
    have hlast : (literal (.bigint i)).toList.getLast? = some 'n' := by
      rw [literal, BigInt.toList_text, List.getLast?_concat]
    rw [literalTag?, if_neg (hhead (by decide) (by decide)), if_neg (hhead (by decide) (by decide)),
      if_neg (not_or.2 ⟨hhead (by decide) (by decide), hhead (by decide) (by decide)⟩),
      if_pos hlast]
    rfl

/-- Literals with the same text are equal to the same values. -/
theorem strictEq_of_literal_eq {l m : Literal} (h : literal l = literal m) (v : Value) :
    v.strictEq l = v.strictEq m := by
  have htag : tagOf l = tagOf m :=
    Option.some.inj (by rw [← literalTag?_literal, h, literalTag?_literal])
  cases l <;> cases m <;> cases htag
  case number.number x y =>
    have hsame := Numeral.script.same_of_text_eq h
    cases v <;> simp [Value.strictEq, Double.equal_of_same hsame]
  case string.string s t =>
    have htext : (Text.quoted s).toList ++ [] = (Text.quoted t).toList ++ [] := by
      rw [List.append_nil, List.append_nil]
      exact congrArg String.toList h
    rw [(Text.quoted_append_inj htext).1]
  case boolean.boolean b c =>
    have hbc : b = c := by
      revert h
      cases b <;> cases c <;> decide
    rw [hbc]
  case bigint.bigint i j =>
    have hhead (i : Int) : (decimalDigits i.natAbs).head? ≠ some '-' := fun h =>
      Numeral.ne_of_isDigit (by decide) (isDigit_of_mem_decimalDigits (List.mem_of_head? h)) rfl
    have htext := congrArg String.toList h
    rw [literal, literal, BigInt.toList_text, BigInt.toList_text] at htext
    obtain ⟨hsign, hdigits⟩ := Numeral.signed_inj (hhead i) (hhead j)
      (List.append_cancel_right htext)
    have habs := decimalDigits_injective hdigits
    rw [decide_eq_decide] at hsign
    obtain rfl : i = j := by omega
    rfl

theorem literal_ne_null (l : Literal) : literal l ≠ "null" := fun h => by
  have htag := literalTag?_literal l
  rw [h] at htag
  cases htag

/-! ### Tests -/

theorem tagText_injective : Function.Injective TypeTag.text := by
  intro a b
  cases a <;> cases b <;> decide

/-- How the text of a test begins. -/
theorem head?_test (t : Test) : (test t).toList.head? = some (match t with
    | .hasTag _ _ => 't'
    | .isArray _ => 'A'
    | _ => 'v') := by
  cases t <;> simp [test, String.toList_append, toList_place]

theorem test_isObject_ne_isNull (p q : Place) : test (.isObject p) ≠ test (.isNull q) := fun h => by
  simp only [test, String.append_assoc] at h
  have htail := (place_append_inj (endsPlace_space (by simp)) (endsPlace_space (by simp)) h).2
  simpa using congrArg (fun s => s.toList.tail.head?) htail

theorem test_isObject_ne_equals (p q : Place) (l : Literal) :
    test (.isObject p) ≠ test (.equals q l) := fun h => by
  simp only [test, String.append_assoc] at h
  have htail := (place_append_inj (endsPlace_space (by simp)) (endsPlace_space (by simp)) h).2
  simpa using congrArg (fun s => s.toList.tail.head?) htail

theorem test_isNull_ne_equals (p q : Place) (l : Literal) :
    test (.isNull p) ≠ test (.equals q l) := fun h => by
  simp only [test, String.append_assoc] at h
  have htail := (place_append_inj (endsPlace_space (by simp)) (endsPlace_space (by simp)) h).2
  have hnull : " === null" = " === " ++ "null" := rfl
  rw [hnull, String.append_right_inj] at htail
  exact literal_ne_null l htail.symm

/-- Tests with the same text hold for the same values. -/
theorem holds_of_test_eq {t u : Test} (h : test t = test u) (s : State) :
    s.holds t = s.holds u := by
  have hhead := congrArg (fun s => s.toList.head?) h
  simp only [head?_test, Option.some.injEq] at hhead
  cases t with
  | hasTag p tag => cases u with
    | hasTag q tag' =>
      simp only [test, String.append_assoc, String.append_right_inj] at h
      obtain ⟨rfl, htag⟩ :=
        place_append_inj (endsPlace_space (by simp)) (endsPlace_space (by simp)) h
      simp only [String.append_right_inj, String.append_left_inj] at htag
      rw [tagText_injective htag]
    | _ => cases hhead
  | isArray p => cases u with
    | isArray q =>
      simp only [test, String.append_assoc, String.append_right_inj, String.append_left_inj] at h
      rw [place_injective h]
    | _ => cases hhead
  | isObject p => cases u with
    | isObject q =>
      simp only [test, String.append_assoc] at h
      rw [(place_append_inj (endsPlace_space (by simp)) (endsPlace_space (by simp)) h).1]
    | isNull q => exact (test_isObject_ne_isNull p q h).elim
    | equals q l => exact (test_isObject_ne_equals p q l h).elim
    | _ => cases hhead
  | isNull p => cases u with
    | isNull q =>
      simp only [test, String.append_left_inj] at h
      rw [place_injective h]
    | isObject q => exact (test_isObject_ne_isNull q p h.symm).elim
    | equals q l => exact (test_isNull_ne_equals p q l h).elim
    | _ => cases hhead
  | equals p l => cases u with
    | equals q m =>
      simp only [test, String.append_assoc] at h
      obtain ⟨rfl, hl⟩ := place_append_inj (endsPlace_space (by simp)) (endsPlace_space (by simp)) h
      exact strictEq_of_literal_eq ((String.append_right_inj " === ").1 hl) _
    | isObject q => exact (test_isObject_ne_equals q p l h.symm).elim
    | isNull q => exact (test_isNull_ne_equals q p l h.symm).elim
    | _ => cases hhead

end Conform.TypeScript
