import Conform.Proofs.Model.Validators
import Conform.Proofs.Model.Watching

/-! The validators of the program of a model fail for the sake of the value only, and look at it
as they should. -/

namespace Conform

/-- Whether an error is about the value, and not about the program or the way it is run. -/
def CheckError.isVerdict : CheckError → Bool
  | .mismatch _ _ | .conversion _ _ => true
  | _ => false

theorem Transforms.apply_isVerdict {ts : Transforms} {n : ConversionId} {v : Value}
    {e : CheckError} (h : ts.apply n v = .error e) : e.isVerdict := by
  unfold apply at h
  split at h
  · cases h
    rfl
  · split at h
    · cases h
      rfl
    · cases h

namespace Model

variable {m : Model} {p : Program} {ts : Transforms} {id : NodeId} {path : String} {v : Value}
  {e : CheckError}

theorem leftover_isVerdict (h : m.leftover ts id path v = .error e) : e.isVerdict := by
  unfold leftover at h
  split at h
  · exact Transforms.apply_isVerdict (map_eq_error.1 h)
  · split_ifs at h
    cases h
    rfl

theorem visitItems_isVerdict {element : NodeId} {items : List Value} {i : Nat}
    (ih : ∀ u ∈ items, ∀ path, m.visit ts element path u = .error e → e.isVerdict)
    (h : m.visitItems ts element path i items = .error e) : e.isVerdict := by
  induction items generalizing i with
  | nil =>
    rw [visitItems] at h
    cases h
  | cons u us ihu =>
    rw [visitItems] at h
    rcases bind_eq_error.1 h with h | ⟨w, -, h⟩
    · exact ih u (by simp) _ h
    · rcases bind_eq_error.1 h with h | ⟨ws, -, h⟩
      · exact ihu (fun x hx => ih x (by simp [hx])) h
      · cases h

theorem visitFields_isVerdict {members : List (String × NodeId)}
    {fields done : List (String × Value)}
    (ih : ∀ name id path,
      m.visit ts id path ((Fields.get? name fields).getD .undefined) = .error e → e.isVerdict)
    (h : m.visitFields ts path fields members done = .error e) : e.isVerdict := by
  induction members generalizing done with
  | nil =>
    rw [visitFields] at h
    cases h
  | cons member members ihm =>
    rw [visitFields] at h
    rcases bind_eq_error.1 h with h | ⟨w, -, h⟩
    · exact ih _ _ _ h
    · exact ihm h

theorem visit_isVerdict (h : m.visit ts id path v = .error e) : e.isVerdict := by
  induction hd : v.depth using Nat.strongRecOn generalizing v id path with
  | _ d ih =>
    subst hd
    cases hf : (m.tests id).find? (·.admits v) with
    | none => exact leftover_isVerdict (visit_none hf ▸ h)
    | some k =>
      obtain ⟨element, items, rfl, rfl⟩ | ⟨record, members, x, rfl, hc, -⟩ | ⟨ha, hr⟩ :=
        tested_cases hf
      · rw [visit_array hf] at h
        exact visitItems_isVerdict (fun u hu path hw => ih _ (Value.depth_lt_array hu) hw rfl)
          (map_eq_error.1 h)
      · rw [visit_record hf] at h
        exact visitFields_isVerdict
          (fun name id path hw => ih _ (Value.depth_get_lt hc name) hw rfl) (map_eq_error.1 h)
      · rw [visit_leaf hf ha hr] at h
        cases h

/-- The validator of a root looks at a value as it should. -/
theorem Programs.watches {roots : List Root} (flat : m.Flat) (numbered : m.Numbered)
    (distinct : m.Distinct) (h : m.Programs roots p) (names : (roots.map (·.name)).Nodup)
    {root : Root} (hroot : root ∈ roots) :
    Watches p ⟨v, []⟩ [] v (p.looks ts root.name v) := by
  obtain ⟨u, hu, hfind, hbody⟩ := h.exists_validator names hroot
  obtain ⟨chain, hchain, hbody⟩ := bind_eq_ok.1 hbody
  have hwatched : m.Watched p ts (v.depth + Program.spareDepth) v :=
    watched flat numbered distinct h.covers (Nat.le_add_right _ _)
  have hlooks := hwatched "" ⟨v, []⟩ Site.Scoped.root hchain
    (by rw [Except.ok.inj hbody]; exact h.calls u hu) (Nat.le_refl 0) rfl (fun _ => rfl) trivial
  rw [Except.ok.inj hbody] at hlooks
  rw [Program.looks, hfind]
  exact hlooks

end Model

end Conform
