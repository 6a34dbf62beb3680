import Mathlib.Logic.Basic
import Conform.Text.Lines

/-! Line ends in texts. The two line endings give the same text where no carriage return stands
right before a line feed: that is what one of them takes away, and the other leaves alone. -/

namespace Conform.Text

variable {cs ds : List Char}

/-- Whether a carriage return stands right before a line feed. -/
def Paired (cs : List Char) : Prop := ['\r', '\n'] <:+: cs

instance (cs : List Char) : Decidable (Paired cs) := inferInstanceAs (Decidable (_ <:+: _))

/-! ### Texts that are put together -/

theorem not_paired_of_notMem (h : '\r' ∉ cs) : ¬Paired cs := fun hpair =>
  h (hpair.subset List.mem_cons_self)

theorem paired_append : Paired (cs ++ ds) ↔
    Paired cs ∨ Paired ds ∨ cs.getLast? = some '\r' ∧ ds.head? = some '\n' := by
  unfold Paired
  constructor
  · intro h
    rcases List.infix_append_iff.1 h with h | h | ⟨xs, ys, hpair, hx, hy⟩
    · exact .inl h
    · exact .inr (.inl h)
    · -- the pair is on one side, or its return ends the one and its feed begins the other
      rcases List.cons_eq_append_iff.1 hpair with ⟨rfl, rfl⟩ | ⟨xs, rfl, hfeed⟩
      · exact .inr (.inl hy.isInfix)
      · rcases List.cons_eq_append_iff.1 hfeed with ⟨rfl, rfl⟩ | ⟨xs, rfl, hnil⟩
        · obtain ⟨zs, rfl⟩ := hx
          obtain ⟨ws, rfl⟩ := hy
          exact .inr (.inr ⟨List.getLast?_concat, rfl⟩)
        · obtain ⟨rfl, rfl⟩ := List.append_eq_nil_iff.1 hnil.symm
          exact .inl hx.isInfix
  · rintro (h | h | ⟨hc, hd⟩)
    · exact h.trans (List.prefix_append _ _).isInfix
    · exact h.trans (List.suffix_append _ _).isInfix
    · obtain ⟨xs, rfl⟩ := List.getLast?_eq_some_iff.1 hc
      obtain ⟨ys, rfl⟩ := List.head?_eq_some_iff.1 hd
      exact ⟨xs, ys, by simp⟩

theorem paired_append_of_notMem (h : '\r' ∉ cs) : Paired (cs ++ ds) ↔ Paired ds := by
  have hlast : cs.getLast? ≠ some '\r' := fun hlast => h (List.mem_of_getLast? hlast)
  simp [paired_append, not_paired_of_notMem h, hlast]

/-- Text without returns, and with no line feed first, keeps what is around it apart. -/
theorem paired_append_append {es : List Char} (h : '\r' ∉ ds) (hhead : ds.head?.any (· ≠ '\n')) :
    Paired (cs ++ (ds ++ es)) ↔ Paired cs ∨ Paired es := by
  obtain ⟨d, hd, hfeed⟩ := Option.any_eq_true _ _ |>.1 hhead
  rw [paired_append, paired_append_of_notMem h, List.head?_append, hd]
  simp [of_decide_eq_true hfeed]

/-- A line feed is the only thing between a text and the next that can be in a pair. -/
theorem paired_append_feed : Paired (cs ++ '\n' :: ds) ↔ Paired (cs ++ ['\n']) ∨ Paired ds := by
  rw [List.append_cons, paired_append]
  simp

theorem paired_append_feed_of_notMem (h : '\n' ∉ cs) :
    Paired (cs ++ ['\n']) ↔ cs.getLast? = some '\r' := by
  have hcs : ¬Paired cs := fun hpair => h (hpair.subset (by simp))
  have hfeed : ¬Paired ['\n'] := by decide
  simp [paired_append, hcs, hfeed]

/-- Texts on lines of their own, with nothing but line feeds between them. -/
theorem paired_intercalate {separator more : List Char} (hseparator : separator = '\n' :: more)
    (hmore : '\r' ∉ more) (xs : List (List Char)) :
    Paired (separator.intercalate xs ++ ['\n']) ↔ ∃ x ∈ xs, Paired (x ++ ['\n']) := by
  induction xs with
  | nil =>
    have hfeed : ¬Paired ['\n'] := by decide
    simpa using hfeed
  | cons x xs ih =>
    cases xs with
    | nil => simp
    | cons y ys =>
      rw [List.intercalate_cons_cons, hseparator, List.append_assoc, List.append_assoc,
        List.cons_append, paired_append_feed, paired_append_of_notMem hmore, ← hseparator, ih]
      simp only [List.mem_cons, exists_eq_or_imp]

theorem notMem_of_mem_lines {line : List Char} (h : line ∈ lines cs) : '\n' ∉ line := by
  rw [lines, List.mem_append, List.mem_map] at h
  rcases h with ⟨piece, hpiece, rfl⟩ | h
  · have hpiece := not_mem_of_mem_split (List.dropLast_subset _ hpiece)
    have hsub : dropReturn piece ⊆ piece := by
      unfold dropReturn
      split
      · next r hr => exact fun c hc => List.mem_reverse.1 (hr ▸ List.mem_cons_of_mem _
          (List.mem_reverse.1 hc))
      · exact List.Subset.refl _
    exact fun hmem => hpiece (hsub hmem)
  · rw [Option.mem_toList, Option.filter_eq_some_iff] at h
    exact not_mem_of_mem_split (List.mem_of_getLast? h.1)

/-! ### Line endings -/

theorem toLineFeeds_eq_self_iff : toLineFeeds cs = cs ↔ ¬Paired cs := by
  fun_induction toLineFeeds cs with
  | case1 cs _ => exact iff_of_false (by simp) (not_not.2 ⟨[], cs, rfl⟩)
  | case2 c cs hpair ih =>
    have hcons : Paired (c :: cs) ↔ Paired cs := by
      refine ⟨fun h => (List.infix_cons_iff.1 h).resolve_left ?_,
        fun h => h.trans (List.suffix_cons c cs).isInfix⟩
      rintro ⟨ds, hds⟩
      obtain ⟨rfl, rfl⟩ := List.cons.inj hds
      exact hpair ds rfl rfl
    rw [List.cons_inj_right, ih, hcons]
  | case3 => exact iff_of_true rfl (by decide)

theorem returnsBeforeFeeds_feed (cs : List Char) :
    returnsBeforeFeeds ('\n' :: cs) = '\r' :: '\n' :: returnsBeforeFeeds cs := rfl

theorem returnsBeforeFeeds_cons {c : Char} (h : c ≠ '\n') (cs : List Char) :
    returnsBeforeFeeds (c :: cs) = c :: returnsBeforeFeeds cs := by
  rw [returnsBeforeFeeds, List.flatMap_cons, if_neg h]
  rfl

theorem head?_returnsBeforeFeeds_ne (cs : List Char) :
    (returnsBeforeFeeds cs).head? ≠ some '\n' := by
  cases cs with
  | nil => simp [returnsBeforeFeeds]
  | cons c cs =>
    rcases eq_or_ne c '\n' with rfl | hc
    · simp [returnsBeforeFeeds_feed]
    · simpa [returnsBeforeFeeds_cons hc] using hc

theorem toLineFeeds_returnsBeforeFeeds (cs : List Char) :
    toLineFeeds (returnsBeforeFeeds cs) = cs := by
  induction cs with
  | nil => rfl
  | cons c cs ih =>
    rcases eq_or_ne c '\n' with rfl | hc
    · rw [returnsBeforeFeeds_feed, toLineFeeds, ih]
    · rw [returnsBeforeFeeds_cons hc, toLineFeeds, ih]
      rintro rest rfl hrest
      exact head?_returnsBeforeFeeds_ne cs (by rw [hrest, List.head?_cons])

/-- Each line feed comes right behind a carriage return. -/
theorem getLast?_of_returnsBeforeFeeds_eq {before behind : List Char}
    (h : returnsBeforeFeeds cs = before ++ '\n' :: behind) : before.getLast? = some '\r' := by
  induction cs generalizing before with
  | nil => simp [returnsBeforeFeeds] at h
  | cons c cs ih =>
    rcases eq_or_ne c '\n' with rfl | hc
    · rw [returnsBeforeFeeds_feed] at h
      rcases List.cons_eq_append_iff.1 h with ⟨-, hhead⟩ | ⟨before, rfl, hfeed⟩
      · cases hhead
      · rcases List.cons_eq_append_iff.1 hfeed with ⟨rfl, -⟩ | ⟨before, rfl, hrest⟩
        · rfl
        · simp [List.getLast?_cons, ih hrest]
    · rw [returnsBeforeFeeds_cons hc] at h
      rcases List.cons_eq_append_iff.1 h with ⟨-, hhead⟩ | ⟨before, rfl, hrest⟩
      · exact absurd (List.cons.inj hhead).1.symm hc
      · simp [List.getLast?_cons, ih hrest]

end Conform.Text
