import Mathlib.Data.List.Induction
import Conform.Proofs.Builder.Image
import Conform.Proofs.Builder.Pieces

/-! Where the members of a union stand. They are what is left of the types of the union, each where
it first occurs, but that arrays go in front of the first record. -/

namespace Conform

/-- Whether a member is a boolean or one of its literals. -/
def Facet.isBooleanPart : Facet → Bool
  | .boolean | .literal _ => true
  | _ => false

section

variable {α β : Type}

theorem findIdx?_cases (p : α → Bool) (xs : List α) :
    xs.findIdx? p = none ∧ (∀ x ∈ xs, p x = false) ∨
      ∃ before y after, xs = before ++ y :: after ∧ (∀ x ∈ before, p x = false) ∧ p y ∧
        xs.findIdx? p = some before.length := by
  induction xs with
  | nil => exact Or.inl ⟨rfl, by simp⟩
  | cons x xs ih =>
    rw [List.findIdx?_cons]
    cases hx : p x with
    | true => exact Or.inr ⟨[], x, xs, rfl, by simp, hx, rfl⟩
    | false =>
      rcases ih with ⟨hnone, hxs⟩ | ⟨before, y, after, rfl, hbefore, hy, hsome⟩
      · refine Or.inl ⟨by simp [hnone], ?_⟩
        simpa [hx] using hxs
      · refine Or.inr ⟨x :: before, y, after, rfl, ?_, hy, by simp [hsome]⟩
        simpa [hx] using hbefore

/-! ### Arrays before records -/

/-- Puts the arrays among what follows the first record in front of it. -/
def arrange (facet : α → Facet) (xs : List α) : List α :=
  xs.takeWhile (facet · != .record) ++
    (xs.dropWhile (facet · != .record)).filter (facet · == .array) ++
      (xs.dropWhile (facet · != .record)).filter (facet · != .array)

variable {facet : α → Facet} {both x r : α} {xs ys before after folded : List α}

theorem record_cases (facet : α → Facet) (xs : List α) :
    (∀ x ∈ xs, facet x ≠ .record) ∨ ∃ before r after, xs = before ++ r :: after ∧
      (∀ x ∈ before, facet x ≠ .record) ∧ facet r = .record := by
  rcases findIdx?_cases (facet · == .record) xs with ⟨-, h⟩ | ⟨before, r, after, h, hb, hr, -⟩
  · exact Or.inl fun x hx => by simpa using h x hx
  · exact Or.inr ⟨before, r, after, h, fun x hx => by simpa using hb x hx, by simpa using hr⟩

theorem arrange_of_record (hb : ∀ x ∈ before, facet x ≠ .record) (hr : facet r = .record) :
    arrange facet (before ++ r :: after) =
      before ++ after.filter (facet · == .array) ++ r :: after.filter (facet · != .array) := by
  have hpos : ∀ x ∈ before, (facet x != .record) = true := by simpa using hb
  rw [arrange, List.takeWhile_append_of_pos hpos, List.dropWhile_append_of_pos hpos]
  simp [hr]

example : arrange id [Facet.array, .boolean, .record, .other, .array, .record] =
    [.array, .boolean, .array, .record, .other, .record] := by decide

theorem arrange_append (h : ∀ x ∈ xs, facet x ≠ .record) (ys : List α) :
    arrange facet (xs ++ ys) = xs ++ arrange facet ys := by
  have hpos : ∀ x ∈ xs, (facet x != .record) = true := by simpa using h
  rw [arrange, List.takeWhile_append_of_pos hpos, List.dropWhile_append_of_pos hpos, arrange]
  simp only [List.append_assoc]

theorem arrange_of_forall (h : ∀ x ∈ xs, facet x ≠ .record) : arrange facet xs = xs := by
  simpa [arrange] using arrange_append h []

/-- What follows a record matters to the order by its arrays and by the rest of it. -/
theorem arrange_append_congr {ys' : List α} (hr : ∃ r ∈ xs, facet r = .record)
    (harray : ys.filter (facet · == .array) = ys'.filter (facet · == .array))
    (hrest : ys.filter (facet · != .array) = ys'.filter (facet · != .array)) :
    arrange facet (xs ++ ys) = arrange facet (xs ++ ys') := by
  rcases record_cases facet xs with h | ⟨before, r, after, rfl, hb, hr⟩
  · obtain ⟨r, hmem, hr⟩ := hr
    exact absurd hr (h r hmem)
  · rw [List.append_assoc, List.cons_append, List.append_assoc, List.cons_append,
      arrange_of_record hb hr, arrange_of_record hb hr]
    simp only [List.filter_append, harray, hrest]

theorem arrange_filter_array (xs : List α) :
    (arrange facet xs).filter (facet · == .array) = xs.filter (facet · == .array) := by
  rcases record_cases facet xs with h | ⟨before, r, after, rfl, hb, hr⟩
  · rw [arrange_of_forall h]
  · rw [arrange_of_record hb hr]
    simp [hr, List.filter_filter]

theorem arrange_filter_rest (xs : List α) :
    (arrange facet xs).filter (facet · != .array) = xs.filter (facet · != .array) := by
  rcases record_cases facet xs with h | ⟨before, r, after, rfl, hb, hr⟩
  · rw [arrange_of_forall h]
  · rw [arrange_of_record hb hr]
    simp [hr, List.filter_filter]

theorem arrange_perm (facet : α → Facet) (xs : List α) : (arrange facet xs).Perm xs := by
  have h := List.filter_append_perm (facet · == .array) (xs.dropWhile (facet · != .record))
  rw [arrange, List.append_assoc]
  refine (h.append_left _).trans ?_
  rw [List.takeWhile_append_dropWhile]

theorem arrange_filter {p : α → Bool} (hp : ∀ x ∈ xs, facet x = .record → p x) :
    arrange facet (xs.filter p) = (arrange facet xs).filter p := by
  rcases record_cases facet xs with h | ⟨before, r, after, rfl, hb, hr⟩
  · rw [arrange_of_forall h, arrange_of_forall fun x hx => h x (List.mem_filter.1 hx).1]
  · rw [List.filter_append, List.filter_cons_of_pos (hp r (by simp) hr),
      arrange_of_record (fun x hx => hb x (List.mem_filter.1 hx).1) hr, arrange_of_record hb hr]
    simp [hp r (by simp) hr, List.filter_filter, Bool.and_comm]

theorem arrange_arrange_append (facet : α → Facet) (xs ys : List α) :
    arrange facet (arrange facet xs ++ ys) = arrange facet (xs ++ ys) := by
  rcases record_cases facet xs with h | ⟨before, r, after, rfl, hb, hr⟩
  · rw [arrange_of_forall h]
  · have hfront : ∀ x ∈ before ++ after.filter (facet · == .array), facet x ≠ .record := by
      intro x hx
      rcases List.mem_append.1 hx with hx | hx
      · exact hb x hx
      · simp [show facet x = .array by simpa using (List.mem_filter.1 hx).2]
    rw [arrange_of_record hb hr, List.append_assoc _ _ ys, List.append_assoc _ _ ys,
      List.cons_append, List.cons_append, arrange_of_record hfront hr, arrange_of_record hb hr]
    simp [List.filter_filter]

theorem arrange_snoc_of_ne (hx : facet x ≠ .array) :
    arrange facet (xs ++ [x]) = arrange facet xs ++ [x] := by
  rcases record_cases facet xs with h | ⟨before, r, after, rfl, hb, hr⟩
  · rw [arrange_append h, arrange_of_forall h]
    by_cases hr : facet x = .record <;> simp [arrange, hr]
  · rw [List.append_assoc, List.cons_append, arrange_of_record hb hr, arrange_of_record hb hr]
    simp [hx]

theorem arrange_map {facet : β → Facet} {f : α → β} (xs : List α) :
    arrange facet (xs.map f) = (arrange (fun x => facet (f x)) xs).map f := by
  simp only [arrange, List.map_append, List.takeWhile_map, List.dropWhile_map, List.filter_map,
    Function.comp_def]

/-- No record stands in front of an array. -/
theorem pairwise_arrange (facet : α → Facet) (xs : List α) :
    (arrange facet xs).Pairwise fun x y => facet x = .record → facet y ≠ .array := by
  rcases record_cases facet xs with h | ⟨before, r, after, rfl, hb, hr⟩
  · rw [arrange_of_forall h]
    exact List.pairwise_of_forall_mem_list fun x hx _ _ hr => absurd hr (h x hx)
  · rw [arrange_of_record hb hr, List.pairwise_append]
    refine ⟨List.pairwise_of_forall_mem_list fun x hx _ _ hx' => ?_,
      List.pairwise_of_forall_mem_list fun _ _ y hy _ => ?_, fun _ _ y hy _ => ?_⟩
    · rcases List.mem_append.1 hx with hx | hx
      · exact absurd hx' (hb x hx)
      · simp [hx'] at hx
    · rcases List.mem_cons.1 hy with rfl | hy
      · simp [hr]
      · simpa using (List.mem_filter.1 hy).2
    · rcases List.mem_cons.1 hy with rfl | hy
      · simp [hr]
      · simpa using (List.mem_filter.1 hy).2

theorem arrange_snoc_array (hx : facet x = .array) (h : arrange facet xs = before ++ r :: after)
    (hb : ∀ x ∈ before, facet x ≠ .record) (hr : facet r = .record) :
    arrange facet (xs ++ [x]) = before ++ x :: r :: after := by
  have hpw := pairwise_arrange facet xs
  rw [h, List.pairwise_append, List.pairwise_cons] at hpw
  have hafter : ∀ y ∈ after, facet y ≠ .array := fun y hy => hpw.2.1.1 y hy hr
  have harray : after.filter (facet · == .array) = [] := by simpa using hafter
  have hrest : after.filter (facet · != .array) = after := by simpa using hafter
  rw [← arrange_arrange_append, h, List.append_assoc, List.cons_append, arrange_of_record hb hr,
    List.filter_append, List.filter_append, harray, hrest]
  simp [hx]

/-! ### Folding in a member -/

def isPlain (facet : α → Facet) (x : α) : Bool := !(facet x).isBooleanPart

/-- What folding in a member comes to, by what is there. -/
inductive FoldsIn (facet : α → Facet) (both x : α) : List α → List α → Prop
  | again {folded : List α} : x ∈ folded → FoldsIn facet both x folded folded
  | absorbed {folded : List α} : x ∉ folded → (facet x).isBooleanPart →
      (∃ y ∈ folded, facet y = .boolean) → FoldsIn facet both x folded folded
  | subsumes {before after : List α} {y : α} : x ∉ before ++ y :: after → facet x = .boolean →
      (∀ z ∈ before ++ y :: after, facet z ≠ .boolean) →
      (∀ z ∈ before, (facet z).isLiteral = false) → (facet y).isLiteral →
      FoldsIn facet both x (before ++ y :: after)
        (before ++ x :: after.filter fun z => !(facet z).isLiteral)
  | joins {before after : List α} {y : α} {value : Bool} : x ∉ before ++ y :: after →
      facet x = .literal value → (∀ z ∈ before ++ y :: after, facet z ≠ .boolean) →
      (∀ z ∈ before, facet z ≠ .literal !value) → (facet y = .literal !value) →
      FoldsIn facet both x (before ++ y :: after) (before ++ both :: after)
  | inserts {before after : List α} {r : α} : x ∉ before ++ r :: after → facet x = .array →
      (∀ z ∈ before, facet z ≠ .record) → facet r = .record →
      FoldsIn facet both x (before ++ r :: after) (before ++ x :: r :: after)
  | appends {folded : List α} : x ∉ folded →
      ((facet x).isBooleanPart → ∀ y ∈ folded, facet y ≠ .boolean) →
      (facet x = .boolean → ∀ y ∈ folded, (facet y).isLiteral = false) →
      (∀ value, facet x = .literal value → ∀ y ∈ folded, facet y ≠ .literal !value) →
      (facet x = .array → ∀ y ∈ folded, facet y ≠ .record) →
      FoldsIn facet both x folded (folded ++ [x])

theorem nodup_middle_of_sublist (hn : folded.Nodup) (hs : (before ++ after).Sublist folded)
    (hx : x ∉ folded) : (before ++ x :: after).Nodup :=
  List.nodup_middle.2 (List.nodup_cons.2 ⟨fun h => hx (hs.subset h), hn.sublist hs⟩)

namespace FoldsIn

variable {folded' : List α}

theorem nodup (hboth : facet both = .boolean) (h : FoldsIn facet both x folded folded')
    (hn : folded.Nodup) : folded'.Nodup := by
  cases h with
  | again | absorbed => exact hn
  | @subsumes before after y hx =>
    refine nodup_middle_of_sublist hn ?_ hx
    exact (List.filter_sublist.trans (List.sublist_cons_self y after)).append_left before
  | @joins before after y value _ _ hnone =>
    exact nodup_middle_of_sublist hn ((List.sublist_cons_self y after).append_left before)
      fun hmem => hnone both hmem hboth
  | inserts hx => exact nodup_middle_of_sublist hn (List.Sublist.refl _) hx
  | appends hx => exact nodup_middle_of_sublist hn (by rw [List.append_nil]) hx

theorem filter_of_part (hboth : facet both = .boolean) (h : FoldsIn facet both x folded folded')
    (hx : isPlain facet x = false) :
    folded'.filter (isPlain facet) = folded.filter (isPlain facet) := by
  cases h with
  | again | absorbed => rfl
  | @subsumes before after y _ _ _ _ hy =>
    have hy' : isPlain facet y = false := by
      cases hf : facet y <;> simp_all [Facet.isLiteral, isPlain, Facet.isBooleanPart]
    have hsub : ∀ z, (isPlain facet z && !(facet z).isLiteral) = isPlain facet z := by
      intro z
      cases hf : facet z <;> simp [Facet.isLiteral, isPlain, Facet.isBooleanPart, hf]
    simp [hx, hy', List.filter_filter, hsub]
  | @joins before after y value _ _ _ _ hy =>
    have hy' : isPlain facet y = false := by simp [isPlain, hy, Facet.isBooleanPart]
    have hboth' : isPlain facet both = false := by simp [isPlain, hboth, Facet.isBooleanPart]
    simp [hy', hboth']
  | inserts _ hf => simp [isPlain, hf, Facet.isBooleanPart] at hx
  | appends => simp [hx]

theorem filter_of_plain (h : FoldsIn facet both x folded folded') (hx : isPlain facet x)
    (hxs : folded.filter (isPlain facet) = arrange facet xs) (hn : x ∉ folded) :
    folded'.filter (isPlain facet) = arrange facet (xs ++ [x]) := by
  cases h with
  | again hmem => exact absurd hmem hn
  | absorbed _ hp => simp [isPlain, hp] at hx
  | subsumes _ hf | joins _ hf => simp [isPlain, hf, Facet.isBooleanPart] at hx
  | @inserts before after r _ hf hb hr =>
    have hpr : isPlain facet r := by simp [isPlain, hr, Facet.isBooleanPart]
    rw [List.filter_append, List.filter_cons_of_pos hpr] at hxs
    rw [arrange_snoc_array hf hxs.symm (fun y hy => hb y (List.mem_filter.1 hy).1) hr]
    simp [hx, hpr]
  | appends _ _ _ _ harray =>
    rw [List.filter_append, List.filter_cons_of_pos hx, List.filter_nil, hxs]
    by_cases hf : facet x = .array
    · have hnone : ∀ y ∈ xs, facet y ≠ .record := by
        intro y hy
        rw [← (arrange_perm facet xs).mem_iff, ← hxs] at hy
        exact harray hf y (List.mem_filter.1 hy).1
      rw [arrange_append hnone, arrange_of_forall hnone]
      simp [arrange, hf]
    · rw [arrange_snoc_of_ne hf]

end FoldsIn

end

/-! ### First occurrences -/

section

variable {α β : Type} [DecidableEq α] [DecidableEq β]

theorem eraseDups_snoc (xs : List α) (x : α) :
    (xs ++ [x]).eraseDups = if x ∈ xs then xs.eraseDups else xs.eraseDups ++ [x] := by
  rw [List.eraseDups_append]
  by_cases hx : x ∈ xs <;> simp [List.removeAll, hx, List.eraseDups_cons]

theorem nodup_eraseDups (xs : List α) : xs.eraseDups.Nodup := by
  induction xs using List.reverseRecOn with
  | nil => exact List.nodup_nil
  | append_singleton xs x ih =>
    rw [eraseDups_snoc]
    split_ifs with hx
    · exact ih
    · refine List.nodup_append.2 ⟨ih, List.nodup_singleton x, fun y hy z hz => ?_⟩
      rw [List.mem_singleton.1 hz]
      rintro rfl
      exact hx (List.mem_eraseDups.1 hy)

theorem eraseDups_of_nodup {xs : List α} (h : xs.Nodup) : xs.eraseDups = xs := by
  induction xs using List.reverseRecOn with
  | nil => rfl
  | append_singleton xs x ih =>
    obtain ⟨hxs, -, hx⟩ := List.nodup_append.1 h
    rw [eraseDups_snoc, if_neg fun hmem => hx x hmem x (List.mem_singleton_self x) rfl, ih hxs]

theorem eraseDups_filter (p : α → Bool) (xs : List α) :
    (xs.filter p).eraseDups = xs.eraseDups.filter p := by
  induction xs using List.reverseRecOn with
  | nil => rfl
  | append_singleton xs x ih =>
    rw [List.filter_append, eraseDups_snoc]
    cases hp : p x with
    | true =>
      rw [List.filter_cons_of_pos hp, List.filter_nil, eraseDups_snoc, ih]
      by_cases hx : x ∈ xs <;> simp [hx, hp]
    | false =>
      rw [List.filter_cons_of_neg (by simp [hp]), List.filter_nil, List.append_nil, ih]
      by_cases hx : x ∈ xs <;> simp [hx, hp]

theorem eraseDups_map {f : α → β} (hf : Function.Injective f) (xs : List α) :
    (xs.map f).eraseDups = xs.eraseDups.map f := by
  induction xs using List.reverseRecOn with
  | nil => rfl
  | append_singleton xs x ih =>
    rw [List.map_append, List.map_singleton, eraseDups_snoc, eraseDups_snoc, ih]
    by_cases hx : x ∈ xs
    · rw [if_pos hx, if_pos (List.mem_map_of_mem hx)]
    · rw [if_neg hx, if_neg fun h => hx ((List.mem_map_of_injective hf).1 h), List.map_append,
        List.map_singleton]

variable {facet : α → Facet} {both x : α} {xs ys folded : List α}

/-- Items in an order of their own can be added one after another as those that they are. -/
theorem arrange_eraseDups_append (facet : α → Facet) (xs ys : List α) :
    arrange facet (xs ++ arrange facet ys.eraseDups).eraseDups =
      arrange facet (xs ++ ys).eraseDups := by
  have hnodup : (arrange facet ys.eraseDups).Nodup :=
    (arrange_perm facet _).nodup_iff.2 (nodup_eraseDups ys)
  rw [List.eraseDups_append, List.eraseDups_append]
  simp only [List.removeAll, eraseDups_filter, eraseDups_of_nodup hnodup]
  by_cases hr : ∃ r ∈ xs, facet r = .record
  · obtain ⟨r, hmem, hr⟩ := hr
    refine arrange_append_congr ⟨r, List.mem_eraseDups.2 hmem, hr⟩ ?_ ?_
    · rw [List.filter_comm, arrange_filter_array, List.filter_comm]
    · rw [List.filter_comm, arrange_filter_rest, List.filter_comm]
  · push Not at hr
    have hkeep : ∀ x ∈ ys.eraseDups, facet x = .record → (!xs.elem x) = true := by
      intro x _ hx
      simpa using fun hmem => hr x hmem hx
    rw [arrange_append fun x hx => hr x (List.mem_eraseDups.1 hx),
      arrange_append fun x hx => hr x (List.mem_eraseDups.1 hx), arrange_filter hkeep,
      arrange_filter fun x hx => hkeep x ((arrange_perm facet _).mem_iff.1 hx)]
    have htwice := arrange_arrange_append facet ys.eraseDups []
    rw [List.append_nil, List.append_nil] at htwice
    rw [htwice]

/-! ### Folding in members one after another -/

theorem foldsIn_foldBy (facet : α → Facet) (both : α) (folded : List α) (x : α) :
    FoldsIn facet both x folded (foldBy facet both folded x) := by
  unfold foldBy
  by_cases hx : x ∈ folded
  · rw [if_pos hx]
    exact .again hx
  rw [if_neg hx]
  cases hf : facet x with
  | boolean =>
    by_cases hany : folded.any (facet · == .boolean)
    · simp only [hany, if_true]
      exact .absorbed hx (by simp [hf, Facet.isBooleanPart]) (by simpa using hany)
    have hnone : ∀ y ∈ folded, facet y ≠ .boolean := by simpa using hany
    simp only [hany]
    rcases findIdx?_cases (fun y => (facet y).isLiteral) folded with
      ⟨hi, hall⟩ | ⟨before, y, after, rfl, hb, hy, hi⟩
    · rw [hi]
      exact .appends hx (fun _ => hnone) (fun _ => hall) (by simp [hf]) (by simp [hf])
    · have h : FoldsIn facet both x _ _ := .subsumes hx hf hnone hb hy
      simpa [hi] using h
  | literal value =>
    by_cases hany : folded.any (facet · == .boolean)
    · simp only [hany, if_true]
      exact .absorbed hx (by simp [hf, Facet.isBooleanPart]) (by simpa using hany)
    have hnone : ∀ y ∈ folded, facet y ≠ .boolean := by simpa using hany
    simp only [hany]
    rcases findIdx?_cases (facet · == .literal !value) folded with
      ⟨hi, hall⟩ | ⟨before, y, after, rfl, hb, hy, hi⟩
    · rw [hi]
      refine .appends hx (fun _ => hnone) (by simp [hf]) (fun v hv y hy => ?_) (by simp [hf])
      cases hf.symm.trans hv
      simpa using hall y hy
    · have h : FoldsIn facet both x _ _ :=
        .joins hx hf hnone (by simpa using hb) (by simpa using hy)
      simpa [hi] using h
  | array =>
    rcases findIdx?_cases (facet · == .record) folded with
      ⟨hi, hall⟩ | ⟨before, r, after, rfl, hb, hr, hi⟩
    · simp only [hi]
      exact .appends hx (by simp [hf, Facet.isBooleanPart]) (by simp [hf]) (by simp [hf])
        fun _ => by simpa using hall
    · have h : FoldsIn facet both x _ _ := .inserts hx hf (by simpa using hb) (by simpa using hr)
      simpa [hi] using h
  | record | other =>
    exact .appends hx (by simp [hf, Facet.isBooleanPart]) (by simp [hf]) (by simp [hf])
      (by simp [hf])

theorem filter_foldBy (hboth : facet both = .boolean)
    (hxs : folded.filter (isPlain facet) = arrange facet xs.eraseDups) (x : α) :
    (foldBy facet both folded x).filter (isPlain facet) =
      arrange facet (xs ++ [x].filter (isPlain facet)).eraseDups := by
  have h := foldsIn_foldBy facet both folded x
  cases hx : isPlain facet x with
  | false =>
    rw [h.filter_of_part hboth hx, List.filter_cons_of_neg (by simp [hx]), List.filter_nil,
      List.append_nil, hxs]
  | true =>
    have hmem : x ∈ folded ↔ x ∈ xs := by
      have : x ∈ folded.filter (isPlain facet) ↔ x ∈ xs.eraseDups := by
        rw [hxs, (arrange_perm facet _).mem_iff]
      rwa [List.mem_filter, and_iff_left hx, List.mem_eraseDups] at this
    rw [List.filter_cons_of_pos hx, List.filter_nil, eraseDups_snoc]
    by_cases hin : x ∈ folded
    · rw [if_pos (hmem.1 hin), foldBy, if_pos hin, hxs]
    · rw [if_neg (mt hmem.2 hin), h.filter_of_plain hx hxs hin]

/-- What folding in several members makes of those that are no booleans. -/
theorem filter_foldl_foldBy (hboth : facet both = .boolean)
    (hxs : folded.filter (isPlain facet) = arrange facet xs.eraseDups) (ys : List α) :
    (ys.foldl (foldBy facet both) folded).filter (isPlain facet) =
      arrange facet (xs ++ ys.filter (isPlain facet)).eraseDups := by
  induction ys generalizing folded xs with
  | nil => simpa using hxs
  | cons y ys ih =>
    rw [List.foldl_cons, ih (filter_foldBy hboth hxs y), List.append_assoc, ← List.filter_append,
      List.singleton_append]

end

end Conform
