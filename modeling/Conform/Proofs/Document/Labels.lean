import Conform.Proofs.Document.Counters
import Conform.Proofs.Model.Labels

/-! What values are expected to be. A failure names each label of its check once, and by that no two
tests become one that different values pass. -/

namespace Conform

namespace Document

/-- Lists of what is expected never confuse literals. Two literals have one form exactly if the same
values are equal to them, and no form is the name of a kind. Wherever a check may fail, what was
expected are the labels of its branches, each once; these are names of kinds and forms of the
literals that are tested for, and branches with one label are taken in the same states. -/
theorem labels_apart (doc : Document) (p : Program) (h : doc.compile = .ok p) :
    (∀ a b : Literal, a.sourceForm = b.sourceForm ↔ ∀ v : Value, v.strictEq a = v.strictEq b) ∧
      (∀ l : Literal, l.sourceForm ∉ kindLabels) ∧
      ∀ body ∈ p.bodies, ∀ loops branches otherwise,
        Occurs loops (.check branches otherwise) body →
          (∀ path expected, otherwise = .fail path expected →
            expected = firstOccurrences (branches.map (·.label))) ∧
          (∀ b ∈ branches, b.label ∈ kindLabels ∨
            ∃ place l, b.test = .equals place l ∧ b.label = l.sourceForm) ∧
          ∀ b ∈ branches, ∀ b' ∈ branches, b.label = b'.label →
            ∀ s : State, s.holds b.test = s.holds b'.test := by
  refine ⟨fun a b => Literal.sourceForm_eq_iff, Literal.sourceForm_notMem_kindLabels, ?_⟩
  obtain ⟨r, roots, b, h⟩ := compile_eq_ok.1 h
  intro body hbody loops branches otherwise ho
  obtain ⟨t, x, -, hs, -⟩ := h.exists_scoped hbody ho
  cases hs with
  | @check chain hw =>
    refine ⟨fun path expected hfail => ?_, fun k hk => hw.label_cases hk,
      fun k hk k' hk' => hw.holds_eq_of_label hk hk'⟩
    rcases chain.otherwise_cases t.place t.path with ⟨n, hc⟩ | hc
    · rw [hc] at hfail
      cases hfail
    · rw [hc] at hfail
      exact (Fallback.fail.inj hfail).2.symm

def lookalikes : Document :=
  { empty with
    types := [("Odd", .union [.literal (.string "it's"), .literal (.string "it\\'s"),
      .literal (.string "Number"), .name "number", .bigint "1", .literal (.string "1n")])]
    generate := [⟨"parseOdd", .name "Odd"⟩] }

theorem labels_apart_lookalikes :
    ∃ p, lookalikes.compile = .ok p ∧ ∀ body ∈ p.bodies, ∀ loops branches otherwise,
      Occurs loops (.check branches otherwise) body →
        (∀ path expected, otherwise = .fail path expected →
          expected = firstOccurrences (branches.map (·.label))) ∧
        (∀ b ∈ branches, b.label ∈ kindLabels ∨
          ∃ place l, b.test = .equals place l ∧ b.label = l.sourceForm) ∧
        ∀ b ∈ branches, ∀ b' ∈ branches, b.label = b'.label →
          ∀ s : State, s.holds b.test = s.holds b'.test := by
  obtain ⟨p, hp⟩ : ∃ p, lookalikes.compile = .ok p := exists_of_isOk (by decide +kernel)
  obtain ⟨-, -, hchecks⟩ := labels_apart lookalikes p hp
  exact ⟨p, hp, hchecks⟩

end Document

end Conform
