import Conform.Proofs.Text.LineEnds
import Conform.Proofs.TypeScript.Blocks

/-! The line ends of sources. Whatever the line ending, what is printed for statements brings no
carriage return of its own: it comes with imports, with the names and types of validators, and with
the bodies of routines. -/

namespace Conform.TypeScript

open Text (Paired)

/-! ### Text without returns -/

def Bare (s : String) : Prop := '\r' ∉ s.toList

instance (s : String) : Decidable (Bare s) := inferInstanceAs (Decidable ('\r' ∉ _))

theorem Plain.bare {s : String} (h : Plain s) : Bare s := h.notMem (by decide)

@[simp] theorem bare_append {s t : String} : Bare (s ++ t) ↔ Bare s ∧ Bare t := by
  simp [Bare, String.toList_append]

theorem bare_indent (depth : Nat) : Bare (indent depth) := by
  rw [Bare, indent, String.toList_join, List.mem_flatMap]
  rintro ⟨s, hs, hmem⟩
  rw [List.eq_of_mem_replicate hs] at hmem
  exact absurd hmem (by decide)

@[simp] theorem bare_line {s : String} {depth : Nat} : Bare (line depth s) ↔ Bare s := by
  have hend : Bare "\n" := by decide
  simp only [line, bare_append, bare_indent, hend, and_true, true_and]

theorem bare_openBrace : Bare openBrace := by decide

theorem bare_closeBrace : Bare closeBrace := by decide

mutual

theorem bare_stmt (depth : Nat) (x : Stmt) : Bare (stmt depth x) := by
  cases x with
  | check bs f =>
    simp only [stmt, bare_append, bare_line]
    exact ⟨⟨bare_branches depth (by decide) bs, by decide⟩, (plain_fallback f).bare⟩
  | convert n p => exact bare_line.2 (plain_convert n p).bare
  | forEach a counter body =>
    simp only [stmt, bare_append, bare_line]
    exact ⟨⟨(plain_loopHead a counter).bare, bare_block _ body⟩, bare_closeBrace⟩
  | call n p a => exact bare_line.2 (plain_call n p a).bare

theorem bare_block (depth : Nat) (xs : List Stmt) : Bare (block depth xs) := by
  cases xs with
  | nil =>
    rw [block]
    decide
  | cons x xs =>
    rw [block, bare_append]
    exact ⟨bare_stmt depth x, bare_block depth xs⟩

theorem bare_branches (depth : Nat) {keyword : String} (h : Plain keyword) (bs : List Branch) :
    Bare (branches depth keyword bs) := by
  cases bs with
  | nil =>
    rw [branches]
    decide
  | cons b bs =>
    obtain ⟨label, t, body⟩ := b
    rw [branches_cons, bare_append, bare_append, bare_line]
    refine ⟨(plain_branchHead h t body).bare, ?_, bare_branches depth (by decide) bs⟩
    cases body with
    | nil =>
      rw [inside]
      decide
    | cons x xs =>
      rw [inside, bare_append, bare_line]
      exact ⟨bare_block (depth + 1) (x :: xs), bare_closeBrace⟩

end

/-! ### Items -/

/-- Whether all that comes with imports and a program ends its lines in line feeds alone. -/
structure FeedsAlone (imports : List String) (p : Program) : Prop where
  imports : ∀ s ∈ imports, ¬Paired (s.toList ++ ['\n'])
  names : ∀ v ∈ p.validators, ¬Paired v.name.toList
  returnTypes : ∀ v ∈ p.validators, ¬Paired v.returnType.toList
  resultTypes : ∀ r ∈ p.routines, ¬Paired r.resultType.toList
  bodies : ∀ r ∈ p.routines, ∀ l ∈ Text.lines r.body.toList,
    l.all Text.isBlank = false → l.getLast? ≠ some '\r'

theorem not_paired_of_bare {s : String} (h : Bare s) : ¬Paired (s.toList ++ ['\n']) := by
  refine Text.not_paired_of_notMem fun hmem => ?_
  rcases List.mem_append.1 hmem with hmem | hmem
  · exact h hmem
  · exact absurd hmem (by decide)

theorem bare_errorClass : Bare errorClass := by
  simp only [errorClass, bare_append, bare_line]
  decide

theorem bare_recordCheck (c : RecordCheck) : Bare (recordCheck c) := by
  have hhead : Plain ("function " ++ checkName c.record ++ "(value: any, path: string) " ++
      openBrace) := by
    unfold checkName
    simp only [plain_append, plain_nat, and_true]
    decide
  rw [recordCheck, bare_append, bare_append, bare_line]
  exact ⟨⟨hhead.bare, bare_block _ _⟩, bare_closeBrace⟩

theorem paired_validator (v : Validator) : Paired ((validator v).toList ++ ['\n']) ↔
    Paired v.name.toList ∨ Paired v.returnType.toList := by
  have htext : (validator v).toList ++ ['\n'] = "export function ".toList ++
      (v.name.toList ++ ("(value: any): ".toList ++ (v.returnType.toList ++
      ((" " ++ openBrace ++ "\n" ++ block 1 v.body ++ indent 1 ++ "return <").toList ++
      (v.returnType.toList ++ ((">value;\n" ++ closeBrace ++ "\n").toList ++ [])))))) := by
    simp only [validator, line, indent, String.toList_append, List.append_assoc]
    rfl
  have hblock : Bare (" " ++ openBrace ++ "\n" ++ block 1 v.body ++ indent 1 ++ "return <") := by
    simp only [bare_append, bare_block, bare_indent, bare_openBrace, and_true]
    decide
  have hnil : ¬Paired [] := by decide
  rw [htext, Text.paired_append_of_notMem (by decide),
    Text.paired_append_append (by decide) (by decide),
    Text.paired_append_append hblock (by simp),
    Text.paired_append_append (by decide) (by decide)]
  simp only [hnil, or_false, or_self]

theorem paired_bodyLines {ls : List (List Char)} (h : ∀ l ∈ ls, '\n' ∉ l) (rest : List Char) :
    Paired ((ls.flatMap fun l => (bodyLine l).toList) ++ rest) ↔
      (∃ l ∈ ls, l.all Text.isBlank = false ∧ l.getLast? = some '\r') ∨ Paired rest := by
  induction ls with
  | nil => simp
  | cons l ls ih =>
    have hl := h l List.mem_cons_self
    have ih := ih fun l hl => h l (List.mem_cons_of_mem _ hl)
    rw [List.flatMap_cons, List.append_assoc, bodyLine]
    simp only [List.mem_cons, exists_eq_or_imp]
    split_ifs with hblank
    · rw [Text.paired_append_of_notMem (by decide), ih]
      simp only [hblank, Bool.true_eq_false, false_and, false_or]
    · have hline : (line 1 (String.ofList l)).toList = (indent 1).toList ++ (l ++ ['\n']) := by
        simp [line, List.append_assoc]
      rw [hline, List.append_assoc, List.append_assoc, Text.paired_append_of_notMem (bare_indent 1),
        List.singleton_append, Text.paired_append_feed, Text.paired_append_feed_of_notMem hl, ih]
      simp only [Bool.eq_false_of_not_eq_true hblank, true_and, or_assoc]

theorem paired_routine (r : Routine) : Paired ((routine r).toList ++ ['\n']) ↔
    Paired r.resultType.toList ∨ ∃ l ∈ Text.lines r.body.toList,
      l.all Text.isBlank = false ∧ l.getLast? = some '\r' := by
  have htext : (routine r).toList ++ ['\n'] =
      ("function " ++ conversionName r.conversion ++ "(value: any): ").toList ++
      (r.resultType.toList ++ ((" " ++ openBrace ++ "\n").toList ++
      (((Text.lines r.body.toList).flatMap fun l => (bodyLine l).toList) ++
      (closeBrace ++ "\n").toList))) := by
    simp only [routine, line, indent, String.toList_append, String.toList_join, List.flatMap_map,
      List.append_assoc]
    rfl
  have hname : Plain ("function " ++ conversionName r.conversion ++ "(value: any): ") := by
    unfold conversionName
    simp only [plain_append, plain_nat, and_true]
    decide
  have hclose : ¬Paired (closeBrace ++ "\n").toList := by decide
  rw [htext, Text.paired_append_of_notMem hname.bare,
    Text.paired_append_append (by decide) (by decide),
    paired_bodyLines (fun _ => Text.notMem_of_mem_lines)]
  simp only [hclose, or_false]

theorem paired_imports (imports : List String) :
    Paired (("\n".intercalate imports).toList ++ ['\n']) ↔
      ∃ s ∈ imports, Paired (s.toList ++ ['\n']) := by
  have hfeed : "\n".toList = '\n' :: [] := rfl
  rw [String.toList_intercalate, Text.paired_intercalate hfeed (by decide)]
  simp

/-- An item has a return before a feed only where something that comes with it has one. -/
theorem feedsAlone_iff (imports : List String) (p : Program) : FeedsAlone imports p ↔
    ∀ item ∈ items imports p, ¬Paired (item.toList ++ ['\n']) := by
  have himports : (∀ item ∈ (if imports.isEmpty then [] else ["\n".intercalate imports]),
      ¬Paired (item.toList ++ ['\n'])) ↔ ∀ s ∈ imports, ¬Paired (s.toList ++ ['\n']) := by
    cases imports with
    | nil => simp
    | cons s ss =>
      rw [List.isEmpty_cons, if_neg Bool.false_ne_true, List.forall_mem_singleton, paired_imports]
      simp only [not_exists, not_and]
  simp only [items, List.forall_mem_append, List.forall_mem_cons, List.forall_mem_map, himports,
    not_paired_of_bare bare_errorClass, not_paired_of_bare (bare_recordCheck _), paired_validator,
    paired_routine, not_false_eq_true, implies_true, true_and, and_true, not_or, not_exists,
    not_and]
  constructor
  · rintro ⟨himports, hnames, hreturns, hresults, hbodies⟩
    exact ⟨⟨himports, fun v hv => ⟨hnames v hv, hreturns v hv⟩⟩,
      fun r hr => ⟨hresults r hr, hbodies r hr⟩⟩
  · rintro ⟨⟨himports, hvalidators⟩, hroutines⟩
    exact ⟨himports, fun v hv => (hvalidators v hv).1, fun v hv => (hvalidators v hv).2,
      fun r hr => (hroutines r hr).1, fun r hr => (hroutines r hr).2⟩

theorem not_paired_source_lf (xs : List String) :
    ¬Paired (source .lf xs).toList ↔ ∀ x ∈ xs, ¬Paired (x.toList ++ ['\n']) := by
  have hfeeds : "\n\n".toList = '\n' :: ['\n'] := rfl
  rw [source, Text.LineEnding.apply, String.ofList_toList, String.toList_append,
    String.toList_intercalate]
  refine (not_congr (Text.paired_intercalate hfeeds (by decide) _)).trans ?_
  simp

theorem toList_source_crlf (xs : List String) : (source .crlf xs).toList =
    Text.returnsBeforeFeeds (Text.toLineFeeds (source .lf xs).toList) := by
  simp only [source, Text.LineEnding.apply, String.toList_ofList]

theorem toLineFeeds_source_crlf (xs : List String) : Text.toLineFeeds (source .crlf xs).toList =
    Text.toLineFeeds (source .lf xs).toList := by
  rw [toList_source_crlf, Text.toLineFeeds_returnsBeforeFeeds]

/-- The text of programs under both line endings, whatever comes with them. Under `crlf` every line
feed has its carriage return, and the text is that under `lf` but for line ends. No carriage return
is left under `lf` in front of a line feed exactly when none comes with the programs, and only then
is the one text got from the other. -/
theorem source_lineEndings (es : List (List String × Program)) :
    let lf := (source .lf (es.flatMap fun e => items e.1 e.2)).toList
    let crlf := (source .crlf (es.flatMap fun e => items e.1 e.2)).toList
    (∀ before behind, crlf = before ++ '\n' :: behind → before.getLast? = some '\r') ∧
      Text.toLineFeeds crlf = Text.toLineFeeds lf ∧
      (¬Paired lf ↔ ∀ e ∈ es, FeedsAlone e.1 e.2) ∧
      (Text.toLineFeeds crlf = lf ↔ ∀ e ∈ es, FeedsAlone e.1 e.2) := by
  intro lf crlf
  have hfeeds : Text.toLineFeeds crlf = Text.toLineFeeds lf := toLineFeeds_source_crlf _
  have halone : ¬Paired lf ↔ ∀ e ∈ es, FeedsAlone e.1 e.2 := by
    rw [not_paired_source_lf, List.forall_mem_flatMap]
    exact forall₂_congr fun e _ => (feedsAlone_iff e.1 e.2).symm
  refine ⟨fun before behind h => ?_, hfeeds, halone, ?_⟩
  · exact Text.getLast?_of_returnsBeforeFeeds_eq ((toList_source_crlf _).symm.trans h)
  · rw [hfeeds, Text.toLineFeeds_eq_self_iff, halone]

/-- An import with a line end of its own. -/
def twoImports : List String :=
  ["import \x7b A \x7d from \"./a\";\r\nimport \x7b B \x7d from \"./b\";"]

/-- Its carriage return stays in a text whose lines end in line feeds. -/
theorem source_lf_twoImports :
    let lf := (source .lf (items twoImports ⟨[], [], []⟩)).toList
    let crlf := (source .crlf (items twoImports ⟨[], [], []⟩)).toList
    Paired lf ∧ Text.toLineFeeds crlf ≠ lf := by
  intro lf crlf
  have himport : Paired (("\n".intercalate twoImports).toList ++ ['\n']) := by decide +kernel
  have hlf : Paired lf := by
    by_contra h
    exact (not_paired_source_lf _).1 h _ List.mem_cons_self himport
  have hread := toLineFeeds_source_crlf (items twoImports ⟨[], [], []⟩)
  exact ⟨hlf, fun h => Text.toLineFeeds_eq_self_iff.1 (hread.symm.trans h) hlf⟩

end Conform.TypeScript
