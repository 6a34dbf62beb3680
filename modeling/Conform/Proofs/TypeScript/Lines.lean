import Conform.Proofs.TypeScript.Expressions

/-! The lines of statements. Each is one line, which says what the statement does but for what
stands in its blocks: the first line of a loop, of a call, of a conversion and of a branch. What is
printed as a fallback says what it does with a value, or the message that it fails with. -/

namespace Conform

theorem toString_append_inj {m n : Nat} {s t : String} (hs : Text.Ends isDigit s.toList)
    (ht : Text.Ends isDigit t.toList) (h : toString m ++ s = toString n ++ t) : m = n ∧ s = t := by
  have h := congrArg String.toList h
  rw [String.toList_append, String.toList_append, toList_toString_nat, toList_toString_nat] at h
  obtain ⟨hdigits, hrest⟩ := Text.run_append_inj (fun _ => isDigit_of_mem_decimalDigits)
    (fun _ => isDigit_of_mem_decimalDigits) hs ht h
  exact ⟨decimalDigits_injective hdigits, String.toList_injective hrest⟩

namespace TypeScript

/-! ### What lines say -/

theorem counterName_append_inj {m n : Nat} {s t : String} (hs : EndsName s.toList)
    (ht : EndsName t.toList) (h : counterName m ++ s = counterName n ++ t) : m = n ∧ s = t := by
  have h := congrArg String.toList h
  rw [String.toList_append, String.toList_append] at h
  obtain ⟨hcounter, hrest⟩ := pathPart_append_inj (p := .counter m) (q := .counter n) hs ht h
  exact ⟨PathPart.counter.inj hcounter, String.toList_injective hrest⟩

theorem endsDigit_paren (s : String) : Text.Ends isDigit ("(" ++ s).toList :=
  Text.ends_of_head? (c := '(') (by simp) (by decide)

theorem convert_inj {m n : ConversionId} {p q : Place} (h : convert m p = convert n q) :
    m = n ∧ p = q := by
  simp only [convert, conversionName, String.append_assoc] at h
  obtain ⟨rfl, htail⟩ := place_append_inj (endsPlace_space (by simp)) (endsPlace_space (by simp)) h
  simp only [String.append_right_inj] at htail
  exact ⟨(toString_append_inj (endsDigit_paren _) (endsDigit_paren _) htail).1, rfl⟩

/-- The first line of a loop says what it goes over, and with which counter. -/
theorem loopHead_inj {m n : Nat} {a b : Place} (h : loopHead a m = loopHead b n) :
    a = b ∧ m = n := by
  unfold loopHead at h
  simp only [String.append_assoc, String.append_right_inj] at h
  have hends (s : String) : EndsName (" = 0; " ++ s).toList :=
    (endsPlace_space (s := " = 0; " ++ s) (by simp)).endsName
  obtain ⟨rfl, htail⟩ := counterName_append_inj (hends _) (hends _) h
  simp only [String.append_right_inj, String.append_left_inj] at htail
  exact ⟨place_injective htail, rfl⟩

/-- The line of a call says which record check is called, on what and with which path. -/
theorem call_inj {m n : RecordId} {p q : Place} {a b : Path}
    (h : checkName m ++ "(" ++ place p ++ ", " ++ path a ++ ");" =
      checkName n ++ "(" ++ place q ++ ", " ++ path b ++ ");") :
    m = n ∧ p = q ∧ path a = path b := by
  unfold checkName at h
  simp only [String.append_assoc, String.append_right_inj] at h
  obtain ⟨rfl, htail⟩ := toString_append_inj (endsDigit_paren _) (endsDigit_paren _) h
  rw [String.append_right_inj] at htail
  have hends (s : String) : EndsPlace (", " ++ s).toList :=
    Text.ends_of_head? (c := ',') (by simp) (by decide)
  obtain ⟨rfl, htail⟩ := place_append_inj (hends _) (hends _) htail
  simp only [String.append_right_inj, String.append_left_inj] at htail
  exact ⟨rfl, rfl, htail⟩

/-- Whether two runs from the same state give the same, or fail with the same message. -/
def SameRun (f g : State → Except CheckError State) : Prop :=
  ∀ s, (f s).mapError CheckError.message = (g s).mapError CheckError.message

theorem SameRun.of_eq {f g : State → Except CheckError State} (h : ∀ s, f s = g s) : SameRun f g :=
  fun s => by rw [h s]

theorem fallback_fail (a : Path) (expected : List String) : fallback (.fail a expected) =
    "throw new TypeError(" ++ (path (failure a expected) ++ ");") := by
  unfold fallback
  simp only [String.append_assoc]

theorem fallback_convert_ne_fail (n : ConversionId) (p : Place) (a : Path)
    (expected : List String) : fallback (.convert n p) ≠ fallback (.fail a expected) := fun h => by
  rw [fallback_fail] at h
  change convert n p = _ at h
  simp only [convert, String.append_assoc] at h
  have hhead := congrArg (fun s => s.toList.head?) h
  simp only [head?_place_append] at hhead
  simp at hhead

/-- Fallbacks with the same text do the same, or fail with the same message. -/
theorem sameRun_fallback {f g : Fallback} (h : fallback f = fallback g) (env : Env) :
    SameRun (·.fallback env f) (·.fallback env g) := by
  cases f with
  | convert m p => cases g with
    | convert n q =>
      obtain ⟨rfl, rfl⟩ := convert_inj h
      exact .of_eq fun _ => rfl
    | fail b expected => exact (fallback_convert_ne_fail m p b expected h).elim
  | fail a expected => cases g with
    | convert n q => exact (fallback_convert_ne_fail n q a expected h.symm).elim
    | fail b expected' =>
      rw [fallback_fail, fallback_fail, String.append_right_inj, String.append_left_inj] at h
      intro s
      have heval := eval_eq_of_path_eq h env.given s.counters.get
      rw [eval_failure, eval_failure] at heval
      exact congrArg Except.error heval

/-! ### Staying on one line -/

def OneLine (s : String) : Prop := '\n' ∉ s.toList

instance (s : String) : Decidable (OneLine s) := inferInstanceAs (Decidable ('\n' ∉ _))

/-- Whether a text has no controls, and so no ends of lines. -/
def Plain (s : String) : Prop := ∀ c ∈ s.toList, 0x20 ≤ c.toNat

instance (s : String) : Decidable (Plain s) := List.decidableBAll _ _

theorem Plain.notMem {s : String} (h : Plain s) {c : Char} (hc : c.toNat < 0x20) :
    c ∉ s.toList := fun hmem => Nat.not_le_of_lt hc (h c hmem)

theorem Plain.oneLine {s : String} (h : Plain s) : OneLine s := h.notMem (by decide)

@[simp] theorem plain_append {s t : String} : Plain (s ++ t) ↔ Plain s ∧ Plain t := by
  simp [Plain, String.toList_append, or_imp, forall_and]

theorem le_of_isDigit {c : Char} (h : isDigit c) : 0x20 ≤ c.toNat := by
  have := isDigit_iff.1 h
  omega

theorem le_of_continuesIdentifier {c : Char} (h : Text.continuesIdentifier c) :
    0x20 ≤ c.toNat := by
  simp only [Text.continuesIdentifier, Text.startsIdentifier, Text.isLetter, Bool.or_eq_true,
    Bool.and_eq_true, decide_eq_true_eq, beq_iff_eq, Char.le_def, UInt32.le_iff_toNat_le] at h
  have hval : c.val.toNat = c.toNat := rfl
  rcases h with (((⟨h, -⟩ | ⟨h, -⟩) | rfl) | rfl) | ⟨h, -⟩
  all_goals first | decide | exact Nat.le_trans (by decide) h

@[simp] theorem plain_nat (n : Nat) : Plain (toString n) := by
  rw [Plain, toList_toString_nat]
  exact fun _ hc => le_of_isDigit (isDigit_of_mem_decimalDigits hc)

theorem plain_pathPart (p : PathPart) : Plain (pathPart p) := by
  cases p with
  | text s => exact fun _ => Text.le_of_mem_quoted
  | given => exact (by decide : Plain "path")
  | counter depth =>
    exact fun _ hc => le_of_continuesIdentifier (continuesIdentifier_counterName hc)

@[simp] theorem plain_counterName (depth : Nat) : Plain (counterName depth) :=
  plain_pathPart (.counter depth)

@[simp] theorem plain_quoted (s : String) : Plain (Text.quoted s) := plain_pathPart (.text s)

@[simp] theorem plain_place (p : Place) : Plain (place p) := by
  induction p with
  | param => decide
  | field base name ih =>
    rw [place]
    split_ifs with h
    · have hname : Plain name := fun c hc =>
        le_of_continuesIdentifier (continuesIdentifier_of_isIdentifier h c hc)
      simp only [plain_append, ih, hname, and_true, true_and]
      decide
    · simp only [plain_append, ih, plain_quoted, and_true, true_and]
      decide
  | item base depth ih =>
    simp only [place, plain_append, ih, plain_counterName, and_true, true_and]
    decide

@[simp] theorem plain_path (p : Path) : Plain (path p) := by
  obtain ⟨x, xs, hx⟩ := List.exists_cons_of_ne_nil (parts_ne_nil p)
  intro c hc
  rw [toList_path hx, List.mem_append] at hc
  rcases hc with hc | hc
  · exact plain_pathPart x c hc
  · obtain ⟨y, -, hc⟩ := List.mem_flatMap.1 hc
    rcases List.mem_append.1 hc with hc | hc
    · exact (by decide : Plain " + ") c hc
    · exact plain_pathPart y c hc

@[simp] theorem plain_literal (l : Literal) : Plain (literal l) := by
  cases l with
  | number d =>
    cases d with
    | nan => decide
    | infinite negative => cases negative <;> decide
    | finite negative rank =>
      obtain ⟨x, hwritten, -⟩ := Numeral.script.exists_written_unsigned rank
      intro c hc
      rw [literal, Numeral.text, String.toList_ofList, Numeral.chars_finite] at hc
      rcases Numeral.mem_signed hc with rfl | hc
      · decide
      · rcases hwritten.mem hc with hc | hc
        · exact le_of_isDigit hc
        · exact (by decide : Plain ".e+-") c hc
  | string s => exact plain_quoted s
  | boolean b => cases b <;> decide
  | bigint i =>
    intro c hc
    rw [literal, BigInt.toList_text, List.mem_append] at hc
    rcases hc with hc | hc
    · rcases Numeral.mem_signed hc with rfl | hc
      · decide
      · exact le_of_isDigit (isDigit_of_mem_decimalDigits hc)
    · exact (by decide : Plain "n") c hc

theorem plain_tag (tag : TypeTag) : Plain tag.text := by cases tag <;> decide

@[simp] theorem plain_test (t : Test) : Plain (test t) := by
  cases t with
  | hasTag p tag =>
    simp only [test, plain_append, plain_place, plain_tag, and_true]
    decide
  | isObject p =>
    simp only [test, plain_append, plain_place, and_true, true_and]
    decide
  | isNull p =>
    simp only [test, plain_append, plain_place, true_and]
    decide
  | equals p l =>
    simp only [test, plain_append, plain_place, plain_literal, and_true, true_and]
    decide
  | isArray p =>
    simp only [test, plain_append, plain_place, and_true]
    decide

@[simp] theorem plain_convert (n : ConversionId) (p : Place) : Plain (convert n p) := by
  unfold convert conversionName
  simp only [plain_append, plain_place, plain_nat, and_true, true_and]
  decide

@[simp] theorem plain_fallback (f : Fallback) : Plain (fallback f) := by
  cases f with
  | convert n p => exact plain_convert n p
  | fail a expected =>
    rw [fallback_fail]
    simp only [plain_append, plain_path, true_and]
    decide

@[simp] theorem plain_loopHead (a : Place) (n : Nat) : Plain (loopHead a n) := by
  unfold loopHead
  simp only [plain_append, plain_place, plain_counterName, and_true]
  decide

theorem plain_call (n : RecordId) (p : Place) (a : Path) :
    Plain (checkName n ++ "(" ++ place p ++ ", " ++ path a ++ ");") := by
  unfold checkName
  simp only [plain_append, plain_place, plain_nat, plain_path, and_true]
  decide

end TypeScript

end Conform
