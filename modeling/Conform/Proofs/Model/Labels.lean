import Conform.Proofs.Model.Running
import Conform.Proofs.Schema.Same
import Conform.Proofs.TypeScript.Expressions

/-! Labels of alternatives: the forms of literals and the names of kinds, which share one list in
messages. Literals have one form exactly if the same values are equal to them, and no form is the
name of a kind, so alternatives with one label have one test. -/

namespace Conform

namespace Literal

/-- Characters of a form without the backslashes that were put in front of some. -/
def unescaped : List Char → List Char
  | [] => []
  | '\\' :: c :: cs => c :: unescaped cs
  | c :: cs => c :: unescaped cs

theorem unescaped_cons {c : Char} (h : c ≠ '\\') (cs : List Char) :
    unescaped (c :: cs) = c :: unescaped cs := by
  rw [unescaped]
  exact fun _ _ hc => absurd hc h

theorem unescaped_sourceChar (c : Char) (cs : List Char) :
    unescaped (sourceChar c ++ cs) = c :: unescaped cs := by
  unfold sourceChar
  split_ifs with hb hq
  · rw [hb]
    rfl
  · rw [hq]
    rfl
  · exact unescaped_cons hb cs

theorem unescaped_flatMap_sourceChar (cs : List Char) :
    unescaped (cs.flatMap sourceChar) = cs := by
  induction cs with
  | nil => rfl
  | cons c cs ih => rw [List.flatMap_cons, unescaped_sourceChar, ih]

theorem toList_sourceForm_string (s : String) :
    (Literal.string s).sourceForm.toList = '\'' :: (s.toList.flatMap sourceChar ++ ['\'']) :=
  String.toList_ofList

theorem sourceForm_string_inj {s t : String}
    (h : (Literal.string s).sourceForm = (Literal.string t).sourceForm) : s = t := by
  have hchars := congrArg String.toList h
  rw [toList_sourceForm_string, toList_sourceForm_string] at hchars
  have hflat := List.append_cancel_right (List.cons.inj hchars).2
  refine String.toList_inj.1 ?_
  rw [← unescaped_flatMap_sourceChar s.toList, hflat, unescaped_flatMap_sourceChar]

/-- But for strings, literals are named in messages as they are written in scripts. -/
theorem sourceForm_eq_literal {l : Literal} (h : ∀ s, l ≠ .string s) :
    l.sourceForm = TypeScript.literal l := by
  cases l with
  | string s => exact absurd rfl (h s)
  | _ => rfl

theorem head?_sourceForm_ne {l : Literal} (hs : ∀ s, l ≠ .string s) (hn : l ≠ .number .nan)
    {c : Char} (hd : isDigit c = false) (hc : c ∉ ['-', 'I', 't', 'f']) :
    l.sourceForm.toList.head? ≠ some c := by
  simp only [List.mem_cons, List.not_mem_nil, or_false, not_or] at hc
  obtain ⟨hminus, hI, ht, hf⟩ := hc
  cases l with
  | number d =>
    rw [sourceForm, Numeral.text, String.toList_ofList]
    cases d with
    | nan => exact absurd rfl hn
    | infinite negative => exact Numeral.head?_signed_ne hminus (by simpa using Ne.symm hI)
    | finite negative rank =>
      rw [Numeral.chars_finite]
      exact Numeral.head?_signed_ne hminus (Numeral.script.head?_unsigned_ne rank hd)
  | string s => exact absurd rfl (hs s)
  | boolean b =>
    cases b
    · simpa [sourceForm] using Ne.symm hf
    · simpa [sourceForm] using Ne.symm ht
  | bigint i => exact BigInt.head?_text_ne i hd hminus

theorem sourceForm_string_ne {s : String} {l : Literal} (h : ∀ t, l ≠ .string t) :
    (Literal.string s).sourceForm ≠ l.sourceForm := by
  intro hform
  have hhead : l.sourceForm.toList.head? = some '\'' := by
    rw [← hform, toList_sourceForm_string]
    rfl
  by_cases hn : l = .number .nan
  · rw [hn] at hhead
    revert hhead
    decide
  · exact head?_sourceForm_ne h hn (by decide) (by decide) hhead

def value : Literal → Value
  | .number d => .number d
  | .string s => .string s
  | .boolean b => .bool b
  | .bigint i => .bigint i

theorem strictEq_value {a b : Literal} :
    a.value.strictEq b ↔ a ≠ .number .nan ∧ a.normal = b.normal := by
  cases a <;> cases b <;> simp [value, Value.strictEq, normal, Double.equal_iff]

theorem normal_eq_of_strictEq {a b : Literal} (h : ∀ v : Value, v.strictEq a = v.strictEq b) :
    a.normal = b.normal := by
  by_cases ha : a = .number .nan
  · by_cases hb : b = .number .nan
    · rw [ha, hb]
    · have hself := strictEq_value.2 ⟨hb, rfl⟩
      rw [← h] at hself
      exact (strictEq_value.1 hself).2.symm
  · have hself := strictEq_value.2 ⟨ha, rfl⟩
    rw [h] at hself
    exact (strictEq_value.1 hself).2

/-- Two literals have one form exactly if the same values are equal to them. -/
theorem sourceForm_eq_iff {a b : Literal} :
    a.sourceForm = b.sourceForm ↔ ∀ v : Value, v.strictEq a = v.strictEq b := by
  constructor
  · intro h
    by_cases ha : ∃ s, a = .string s
    · obtain ⟨s, rfl⟩ := ha
      by_cases hb : ∃ t, b = .string t
      · obtain ⟨t, rfl⟩ := hb
        rw [sourceForm_string_inj h]
        exact fun v => rfl
      · exact absurd h (sourceForm_string_ne (not_exists.1 hb))
    · by_cases hb : ∃ t, b = .string t
      · obtain ⟨t, rfl⟩ := hb
        exact absurd h.symm (sourceForm_string_ne (not_exists.1 ha))
      · rw [sourceForm_eq_literal (not_exists.1 ha), sourceForm_eq_literal (not_exists.1 hb)] at h
        exact TypeScript.strictEq_of_literal_eq h
  · intro h
    rw [← sourceForm_normal a, normal_eq_of_strictEq h, sourceForm_normal]

end Literal

def kindLabels : List String :=
  ["Number", "String", "Boolean", "Undefined", "BigInt", "Object", "Null", "Array"]

theorem Literal.sourceForm_notMem_kindLabels (l : Literal) : l.sourceForm ∉ kindLabels := by
  intro h
  -- no name begins like a form
  have hheads : ∀ s ∈ kindLabels, s.toList.head?.any fun c =>
      isDigit c = false ∧ c ∉ ['-', 'I', 't', 'f'] ∧ c ≠ '\'' := by decide
  obtain ⟨c, hc, hinitial⟩ := (Option.any_eq_true _ _).1 (hheads _ h)
  obtain ⟨hd, hother, hquote⟩ := of_decide_eq_true hinitial
  by_cases hs : ∃ s, l = .string s
  · obtain ⟨s, rfl⟩ := hs
    rw [toList_sourceForm_string] at hc
    exact hquote (Option.some.inj hc).symm
  · by_cases hn : l = .number .nan
    · rw [hn] at h
      revert h
      decide
    · exact head?_sourceForm_ne (not_exists.1 hs) hn hd hother hc

namespace NodeKind

variable {k k' : NodeKind}

theorem label_mem_kindLabels (hk : k.isTest) (hl : ∀ l, k ≠ .literal l) :
    k.label ∈ kindLabels := by
  cases k with
  | any | union _ | conversion _ => cases hk
  | literal l => exact absurd rfl (hl l)
  | _ => simp [label, kindLabels]

theorem label_ne_sourceForm (hk : k.isTest) (hl : ∀ l, k ≠ .literal l) (l : Literal) :
    k.label ≠ l.sourceForm := by
  intro h
  have hmem := label_mem_kindLabels hk hl
  rw [h] at hmem
  exact l.sourceForm_notMem_kindLabels hmem

/-- Kinds with one label are tested for in one way: both are literals with one form, or neither is
one. -/
theorem admits_eq_of_label (hk : k.isTest) (hk' : k'.isTest) (h : k.label = k'.label) (v : Value) :
    k.admits v = k'.admits v := by
  by_cases hl : ∃ l, k = .literal l
  · obtain ⟨l, rfl⟩ := hl
    by_cases hl' : ∃ l', k' = .literal l'
    · obtain ⟨l', rfl⟩ := hl'
      exact Literal.sourceForm_eq_iff.1 h v
    · exact absurd h.symm (label_ne_sourceForm hk' (not_exists.1 hl') l)
  · by_cases hl' : ∃ l', k' = .literal l'
    · obtain ⟨l', rfl⟩ := hl'
      exact absurd h (label_ne_sourceForm hk (not_exists.1 hl) l')
    · -- only objects and records share the name of a kind
      cases k <;> cases k' <;> simp_all [label, isTest, admits]

end NodeKind

namespace Model.Writes

variable {m : Model} {site : Model.Site} {id : NodeId} {chain : Chain} {b b' : Branch}

/-- A branch is labelled with a kind, or with the literal that it tests for. -/
theorem label_cases (h : m.Writes site id chain) (hb : b ∈ chain.branches) :
    b.label ∈ kindLabels ∨ ∃ place l, b.test = .equals place l ∧ b.label = l.sourceForm := by
  obtain ⟨k, hk, hkb⟩ := exists_of_mem_right h.branches hb
  rw [hkb.label, hkb.test]
  by_cases hl : ∃ l, k = .literal l
  · obtain ⟨l, rfl⟩ := hl
    exact .inr ⟨site.place, l, rfl, rfl⟩
  · exact .inl (NodeKind.label_mem_kindLabels (isTest_of_mem_tests k hk) (not_exists.1 hl))

theorem holds_eq_of_label (h : m.Writes site id chain) (hb : b ∈ chain.branches)
    (hb' : b' ∈ chain.branches) (hlabel : b.label = b'.label) (s : State) :
    s.holds b.test = s.holds b'.test := by
  obtain ⟨k, hk, hkb⟩ := exists_of_mem_right h.branches hb
  obtain ⟨k', hk', hkb'⟩ := exists_of_mem_right h.branches hb'
  have htest := isTest_of_mem_tests k hk
  have htest' := isTest_of_mem_tests k' hk'
  rw [hkb.label, hkb'.label] at hlabel
  rw [hkb.test, hkb'.test, NodeKind.holds_test htest, NodeKind.holds_test htest']
  exact NodeKind.admits_eq_of_label htest htest' hlabel _

end Model.Writes

end Conform
