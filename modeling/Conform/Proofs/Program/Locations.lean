import Mathlib.Data.List.Pairwise
import Conform.Program.Place
import Conform.Proofs.Number.Digits
import Conform.Proofs.Text.Runs

/-! Locations as text: the steps into a value one after the other, fields behind points and items in
brackets. A location can be told from its text step by step as long as no field has the name of
another one with the text of a location behind it. -/

namespace Conform

namespace Step

def text : Step → String
  | .field name => "." ++ name
  | .item none => "[]"
  | .item (some i) => "[" ++ toString i ++ "]"

theorem toList_text (s : Step) : s.text.toList = match s with
    | .field name => '.' :: name.toList
    | .item none => ['[', ']']
    | .item (some i) => '[' :: (decimalDigits i ++ [']']) := by
  cases s with
  | field name => simp [text]
  | item index => cases index <;> simp [text, decimalDigits]

end Step

def locationText (l : List Step) : String := String.join (l.map Step.text)

@[simp] theorem locationText_nil : locationText [] = "" := rfl

@[simp] theorem locationText_cons (s : Step) (l : List Step) :
    locationText (s :: l) = s.text ++ locationText l := by
  simp [locationText, String.join_cons]

/-- Whether a text is empty or begins as a step does. -/
def BeginsStep (cs : List Char) : Prop := ∀ c ∈ cs.head?, c = '.' ∨ c = '['

theorem beginsStep_locationText (l : List Step) : BeginsStep (locationText l).toList := by
  intro c hc
  cases l with
  | nil => cases hc
  | cons s l =>
    rw [locationText_cons, String.toList_append, Step.toList_text] at hc
    cases s with
    | field name => exact Or.inl (Option.some.inj hc).symm
    | item index => cases index <;> exact Or.inr (Option.some.inj hc).symm

theorem locationText_cons_ne_nil (s : Step) (l : List Step) :
    locationText (s :: l) ≠ locationText [] := fun h => by
  have := congrArg String.toList h
  rcases s with name | _ | i <;> simp [Step.toList_text] at this

theorem locationText_item_ne_field {index : Option Nat} {name : String} {l l' : List Step} :
    locationText (.item index :: l) ≠ locationText (.field name :: l') := fun h => by
  have := congrArg String.toList h
  cases index <;> simp [Step.toList_text] at this

theorem not_beginsStep_index {i : Nat} {xs ys : List Char}
    (h : decimalDigits i ++ [']'] = xs ++ ys) (hne : ys ≠ []) : ¬ BeginsStep ys := by
  obtain ⟨y, ys, rfl⟩ := List.exists_cons_of_ne_nil hne
  have hy : y ∈ decimalDigits i ++ [']'] := by simp [h]
  intro hbegins
  have hcases := hbegins y rfl
  rcases List.mem_append.1 hy with hd | hd
  · rcases hcases with rfl | rfl <;> exact absurd (isDigit_of_mem_decimalDigits hd) (by decide)
  · obtain rfl := List.mem_singleton.1 hd
    exact absurd hcases (by decide)

/-- A step that is cut off where another one begins is a step by itself. -/
theorem exists_step_of_prefix {s : Step} {xs ys : List Char} (h : s.text.toList = xs ++ ys)
    (hxs : xs ≠ []) (hys : BeginsStep ys) : ∃ t : Step, xs = t.text.toList := by
  obtain ⟨x, xs, rfl⟩ := List.exists_cons_of_ne_nil hxs
  by_cases hne : ys = []
  · exact ⟨s, by rw [h, hne, List.append_nil]⟩
  rw [Step.toList_text] at h
  cases s with
  | field name =>
    obtain ⟨rfl, -⟩ := List.cons.inj h
    exact ⟨.field (String.ofList xs), by simp [Step.toList_text]⟩
  | item index =>
    cases index with
    | none =>
      obtain ⟨-, h⟩ := List.cons.inj h
      obtain ⟨y, ys, rfl⟩ := List.exists_cons_of_ne_nil hne
      have hy : y ∈ [']'] := by simp [h]
      obtain rfl := List.mem_singleton.1 hy
      exact absurd (hys _ rfl) (by decide)
    | some i => exact absurd hys (not_beginsStep_index (List.cons.inj h).2 hne)

/-- What is cut off the text of a location where a step begins is the text of a location. -/
theorem exists_location_of_prefix {l : List Step} {xs ys : List Char}
    (h : (locationText l).toList = xs ++ ys) (hys : BeginsStep ys) :
    ∃ l', xs = (locationText l').toList := by
  induction l generalizing xs with
  | nil =>
    obtain ⟨rfl, -⟩ := List.nil_eq_append_iff.1 h
    exact ⟨[], rfl⟩
  | cons s l ih =>
    rw [locationText_cons, String.toList_append] at h
    rcases List.append_eq_append_iff.1 h with ⟨as, rfl, hrest⟩ | ⟨bs, hstep, rfl⟩
    · obtain ⟨l', rfl⟩ := ih hrest
      exact ⟨s :: l', by simp⟩
    · by_cases hxs : xs = []
      · exact ⟨[], hxs⟩
      · have hbs : BeginsStep bs := fun c hc => hys c (by
          cases bs with
          | nil => cases hc
          | cons b bs => exact hc)
        obtain ⟨t, ht⟩ := exists_step_of_prefix hstep hxs hbs
        exact ⟨[t], by simp [ht]⟩

/-- Whether fields with two names, and what is further on in them, can be told apart in texts. -/
def Apart (a b : String) : Prop := ∀ l, b ≠ a ++ locationText l ∧ a ≠ b ++ locationText l

instance : Std.Symm Apart := ⟨fun _ _ h l => (h l).symm⟩

def Readable (names : List String) : Prop := names.Pairwise Apart

theorem Readable.nodup {names : List String} (h : Readable names) : names.Nodup :=
  h.imp fun hab he => (hab []).1 (by rw [he, locationText_nil, String.append_empty])

/-- Names that hold nothing with which a step begins are told apart. -/
theorem apart_of_plain {a b : String} (hne : a ≠ b) (ha : '.' ∉ a.toList ∧ '[' ∉ a.toList)
    (hb : '.' ∉ b.toList ∧ '[' ∉ b.toList) : Apart a b := by
  have hnot : ∀ {x y : String}, x ≠ y → '.' ∉ y.toList ∧ '[' ∉ y.toList → ∀ l,
      y ≠ x ++ locationText l := by
    rintro x y hxy hy l rfl
    cases hl : (locationText l).toList with
    | nil => exact hxy (String.toList_inj.1 (by rw [String.toList_append, hl, List.append_nil]))
    | cons c cs =>
      have hc : c ∈ (x ++ locationText l).toList := by
        rw [String.toList_append, hl]
        simp
      rcases beginsStep_locationText l c (by rw [hl]; rfl) with rfl | rfl
      · exact hy.1 hc
      · exact hy.2 hc
  exact fun l => ⟨hnot hne hb l, hnot hne.symm ha l⟩

theorem exists_location_of_append {a b : String} {l l' : List Step}
    (h : a ++ locationText l = b ++ locationText l') :
    ∃ k, b = a ++ locationText k ∨ a = b ++ locationText k := by
  have hlist := congrArg String.toList h
  simp only [String.toList_append] at hlist
  rcases List.append_eq_append_iff.1 hlist with ⟨as, hb, hl⟩ | ⟨bs, ha, hl⟩
  · obtain ⟨k, rfl⟩ := exists_location_of_prefix hl (beginsStep_locationText l')
    exact ⟨k, Or.inl (String.toList_inj.1 (by rw [hb, String.toList_append]))⟩
  · obtain ⟨k, rfl⟩ := exists_location_of_prefix hl (beginsStep_locationText l)
    exact ⟨k, Or.inr (String.toList_inj.1 (by rw [ha, String.toList_append]))⟩

theorem item_append_inj {i j : Nat} {l l' : List Step}
    (h : (Step.item (some i)).text ++ locationText l =
      (Step.item (some j)).text ++ locationText l') : i = j ∧ locationText l = locationText l' := by
  have hlist := congrArg String.toList h
  simp only [String.toList_append, Step.toList_text, List.cons_append, List.cons.injEq, true_and,
    List.append_assoc] at hlist
  have hends : ∀ cs : List Char, Text.Ends isDigit (']' :: cs) :=
    Text.ends_cons (by decide)
  obtain ⟨hdigits, hrest⟩ := Text.run_append_inj (fun _ => isDigit_of_mem_decimalDigits)
    (fun _ => isDigit_of_mem_decimalDigits) (hends _) (hends _) hlist
  exact ⟨decimalDigits_injective hdigits, String.toList_inj.1 (List.cons.inj hrest).2⟩

end Conform
