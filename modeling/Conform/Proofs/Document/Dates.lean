import Conform.Proofs.Document.Conversions
import Conform.Proofs.Document.Revalidation
import Conform.Proofs.Program.Transforms
import Conform.Proofs.Transform.IsoDate

/-! Validating again where each conversion of a run would keep what it gave, and dates, which are
kept in years of four digits. -/

namespace Conform

/-! ### Transforms that refuse what they would not keep -/

open Classical in
noncomputable def Transform.kept (t : Transform) : Transform := fun v =>
  match t v with
  | .ok w => if w.isComposite = false ∧ t w = .ok w then .ok w else .error "not kept"
  | .error message => .error message

theorem Transform.kept_eq_ok {t : Transform} {v w : Value} :
    t.kept v = .ok w ↔ t v = .ok w ∧ w.isComposite = false ∧ t w = .ok w := by
  unfold kept
  cases t v with
  | error message => simp
  | ok u =>
    simp only [Except.ok.injEq]
    split_ifs with h
    · constructor
      · rintro ⟨⟩
        exact ⟨rfl, h⟩
      · rintro ⟨rfl, -⟩
        rfl
    · constructor
      · rintro ⟨⟩
      · rintro ⟨rfl, hw⟩
        exact absurd hw h

namespace Transforms

noncomputable def kept (ts : Transforms) : Transforms :=
  ⟨ts.entries.map fun e => (e.1, e.2.kept)⟩

theorem get?_kept (ts : Transforms) (n : ConversionId) :
    ts.kept.get? n = (ts.get? n).map Transform.kept := by
  obtain ⟨entries⟩ := ts
  simp only [get?, kept]
  induction entries with
  | nil => rfl
  | cons e es ih =>
    rw [List.map_cons, List.lookup_cons, List.lookup_cons, ih]
    split <;> rfl

theorem kept_settled (ts : Transforms) : ts.kept.Settled := by
  intro n t' ht' x y hy
  rw [get?_kept] at ht'
  obtain ⟨t, -, rfl⟩ := Option.map_eq_some_iff.1 ht'
  obtain ⟨-, hc, hkeep⟩ := Transform.kept_eq_ok.1 hy
  exact ⟨hc, Transform.kept_eq_ok.2 ⟨hkeep, hc, hkeep⟩⟩

end Transforms

/-- Whether a conversion would keep what it gives at a look, which is no array and no object. -/
def Look.Kept (ts : Transforms) (l : Look) : Prop :=
  ∀ n, l.deed = .convert n → ∀ t w, ts.get? n = some t → t l.seen = .ok w →
    w.isComposite = false ∧ t w = .ok w

theorem Look.Kept.carries {ts : Transforms} {l : Look} (h : l.Kept ts) : l.Carries ts ts.kept := by
  intro n hn t w ht hw
  refine ⟨t.kept, ?_, Transform.kept_eq_ok.2 ⟨hw, h n hn t w ht hw⟩⟩
  rw [Transforms.get?_kept, ht]
  rfl

theorem Look.carries_of_kept (ts : Transforms) (l : Look) : l.Carries ts.kept ts := by
  intro n _ t' w ht' hw
  rw [Transforms.get?_kept] at ht'
  obtain ⟨t, ht, rfl⟩ := Option.map_eq_some_iff.1 ht'
  exact ⟨t, ht, (Transform.kept_eq_ok.1 hw).1⟩

namespace Document

variable {doc : Document} {r : Resolved} {roots : List Model.Root} {b : Builder TypeId}
  {p : Program} {ts : Transforms} {name : String} {v w : Value}

/-- Validating what a validator gave back gives it back as it is if each conversion that was made
keeps what it gave. With transforms that refuse everything else both runs are the same, and those
are settled. -/
theorem Compiles.validate_kept (h : doc.Compiles r roots b p) (hd : doc.Distinct)
    (hl : ∀ l ∈ p.looks ts name v, l.Kept ts) (hv : p.validate ts name v = .ok w) :
    p.validate ts name w = .ok w := by
  obtain ⟨root, hroot, rfl⟩ := h.mem_roots (h.mem_names hv)
  obtain ⟨hvalid, -⟩ := h.advances
  have hdistinct := h.distinct hd
  have hvalidate : ∀ v, p.validate ts.kept root.name v =
      (b.finish.visit ts.kept root.node "value" v).map fun w => w.getD v :=
    h.programs.validate hvalid.flat hvalid.numbered (Or.inr hdistinct) h.names.2 hroot
  have hkept : p.validate ts.kept root.name v = .ok w :=
    Program.validate_of_carries (fun l hm => (hl l hm).carries) hv
  have hagain : p.validate ts.kept root.name w = .ok w := by
    rw [hvalidate] at hkept ⊢
    obtain ⟨x, hx, rfl⟩ := map_eq_ok.1 hkept
    obtain ⟨y, hy, hkeep⟩ := (Model.visit_again ts.kept_settled hdistinct hx).keeps hx
    rw [hy, Except.map, hkeep]
  exact Program.validate_of_carries (fun l _ => l.carries_of_kept ts) hagain

theorem transform_isoDate (hall : ∀ c ∈ doc.conversions, c.builtin = some .isoDate)
    {n : ConversionId} {t : Transform} (ht : doc.transforms.get? n = some t) :
    t = Builtin.isoDateOf := by
  rw [transforms, get?_transformsFrom] at ht
  split_ifs at ht
  obtain ⟨builtin, hb, rfl⟩ := Option.map_eq_some_iff.1 ht
  obtain ⟨c, hc, hb⟩ := Option.bind_eq_some_iff.1 hb
  obtain rfl := Option.some.inj ((hall c (List.mem_of_getElem? hc)).symm.trans hb)
  rfl

end Document

/-- Whether a date that is converted is in a year of four digits, in universal time. -/
def Look.isDated (l : Look) : Bool :=
  match l.deed, l.seen with
  | .convert _, .string s => (DateText.moment? (Text.trim s.toList)).all fun m =>
      0 ≤ m.date.year && m.date.year ≤ 9999
  | _, _ => true

theorem Look.kept_of_isDated {doc : Document} {l : Look} (h : l.isDated)
    (hall : ∀ c ∈ doc.conversions, c.builtin = some .isoDate) : l.Kept doc.transforms := by
  intro n hn t w ht hw
  obtain rfl := Document.transform_isoDate hall ht
  obtain ⟨s, m, hs, hm, rfl⟩ := Builtin.isoDateOf_eq_ok.1 hw
  have hyear : 0 ≤ m.date.year ∧ m.date.year ≤ 9999 := by simpa [isDated, hn, hs, hm] using h
  exact ⟨rfl, by rw [Builtin.isoDateOf_text (DateText.moment?_regular hm), if_pos hyear]⟩

namespace Builtin

/-- The conversion of dates gives timestamps that it keeps as they are, but for those in years that
are written with a sign, which it refuses. So a document whose conversions are all of dates keeps
what it made of a value if no date in it was in such a year. -/
theorem isoDate_keeps (v w : Value) :
    (isoDate.transform v = .ok w → ∃ s m, v = .string s ∧
      DateText.moment? (Text.trim s.toList) = some m ∧ w = .string m.text ∧
      isoDate.transform w = if 0 ≤ m.date.year ∧ m.date.year ≤ 9999 then .ok w
        else .error (dateRefusal m.text)) ∧
    ∀ (doc : Document) (p : Program) (name : String), doc.Distinct → doc.compile = .ok p →
      (∀ c ∈ doc.conversions, c.builtin = some .isoDate) →
      p.validate doc.transforms name v = .ok w →
      (∀ l ∈ p.looks doc.transforms name v, l.isDated) →
      p.validate doc.transforms name w = .ok w := by
  constructor
  · intro h
    simp only [transform] at h ⊢
    obtain ⟨s, m, hs, hm, rfl⟩ := isoDateOf_eq_ok.1 h
    exact ⟨s, m, hs, hm, rfl, isoDateOf_text (DateText.moment?_regular hm)⟩
  · intro doc p name hd h hall hv hl
    obtain ⟨r, roots, b, h⟩ := Document.compile_eq_ok.1 h
    exact h.validate_kept hd (fun l hm => Look.kept_of_isDated (hl l hm) hall) hv

def journeys : Document :=
  { Document.empty with
    types := [("Journey", .record [("days", .array (.name "Day"))]), ("Day", .name "object")]
    conversions := [⟨.name "Day", "", some .isoDate⟩]
    generate := [⟨"parseJourney", .name "Journey"⟩] }

theorem journeys_distinct : journeys.Distinct := by
  refine ⟨?_, ?_, ?_⟩ <;>
    simp [journeys, Document.empty, TypeExpr.Distinct, fieldsDistinct, Fields.names]

/-- The last hours of 1999 and a whole month, from where the dates are kept as they are. -/
def journey : Value :=
  .object [("days", .array [.string "2000-01-01T01:30:00+02:00", .string " 2000-02 "])]

theorem isoDate_keeps_journey : (∃ w, isoDate.transform (.string " 2000-02 ") = .ok w ∧
      isoDate.transform w = .ok w) ∧ ∃ p w, journeys.Distinct ∧ journeys.compile = .ok p ∧
    (∀ c ∈ journeys.conversions, c.builtin = some .isoDate) ∧
    p.validate journeys.transforms "parseJourney" journey = .ok w ∧
    (∀ l ∈ p.looks journeys.transforms "parseJourney" journey, l.isDated) ∧
    p.validate journeys.transforms "parseJourney" w = .ok w := by
  constructor
  · obtain ⟨w, hw⟩ : ∃ w, isoDate.transform (.string " 2000-02 ") = .ok w :=
      exists_of_isOk (by decide +kernel)
    obtain ⟨s, m, hs, hm, -, hkeep⟩ := (isoDate_keeps _ w).1 hw
    obtain rfl : " 2000-02 " = s := Value.string.inj hs
    have hfebruary : DateText.moment? (Text.trim " 2000-02 ".toList) =
        some ⟨⟨2000, 2, 1⟩, 0, 0, 0, 0⟩ := by decide +kernel
    obtain rfl := Option.some.inj (hfebruary.symm.trans hm)
    exact ⟨w, hw, hkeep⟩
  obtain ⟨p, hp⟩ : ∃ p, journeys.compile = .ok p := exists_of_isOk (by decide +kernel)
  have hrun : (journeys.compile.toOption.elim false fun p =>
      (p.validate journeys.transforms "parseJourney" journey).isOk &&
        (p.looks journeys.transforms "parseJourney" journey).all Look.isDated) = true := by
    decide +kernel
  rw [hp] at hrun
  obtain ⟨hok, hdated⟩ := (Bool.and_eq_true _ _).mp hrun
  obtain ⟨w, hw⟩ := exists_of_isOk hok
  have hall : ∀ c ∈ journeys.conversions, c.builtin = some .isoDate := by simp [journeys]
  have hdated := List.all_eq_true.1 hdated
  exact ⟨p, w, journeys_distinct, hp, hall, hw, hdated,
    (isoDate_keeps journey w).2 journeys p _ journeys_distinct hp hall hw hdated⟩

/-- A date in a year of five digits is converted, but its timestamp is not. -/
theorem isoDate_refuses_long :
    isoDate.transform (.string "+10000-01-02") = .ok (.string "+10000-01-02T00:00:00+00:00") ∧
      isoDate.transform (.string "+10000-01-02T00:00:00+00:00") =
        .error (dateRefusal "+10000-01-02T00:00:00+00:00") := by
  have hread : DateText.moment? (Text.trim "+10000-01-02".toList) =
      some ⟨⟨10000, 1, 2⟩, 0, 0, 0, 0⟩ := by decide +kernel
  have htext : (⟨⟨10000, 1, 2⟩, 0, 0, 0, 0⟩ : Moment).text = "+10000-01-02T00:00:00+00:00" := by
    decide +kernel
  simp only [transform, ← htext]
  exact ⟨isoDateOf_eq_ok.2 ⟨_, _, rfl, hread, rfl⟩,
    isoDateOf_text (DateText.moment?_regular hread)⟩

end Builtin

end Conform
