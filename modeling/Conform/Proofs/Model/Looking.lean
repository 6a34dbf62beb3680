import Conform.Proofs.Model.Simulation
import Conform.Proofs.Program.Looks

/-! What is looked at when statements that are written for a node are run on a value. The looks
start at the place of the value and go on to its parts, each of which is left alone once a
conversion has put something there. As for what running comes to, the proof follows the depth of
the value. -/

namespace Conform

theorem NodeKind.place_test (k : NodeKind) (p : Place) : (k.test p).place = p := by
  cases k <;> rfl

theorem Value.isComposite_iff {v : Value} :
    v.isComposite ↔ !v.isNull && v.tag == .object := by
  cases v <;> simp [isComposite, isNull, tag]

namespace Model

/-- What holds of the looks at a value that some steps lead to from the value of a routine, and of
those at its parts. The state is that of the routine before the first of them. -/
structure Fits (p : Program) (s : State) (steps : List Step) (v : Value) (l : Look) : Prop where
  guarded : l.Guarded
  /-- What is seen is what was there in the first place. -/
  place : ∃ rest, l.steps = steps ++ rest ∧ (l.deed.isRound ∨ l.seen = v.along rest)
  whole : l.whole = s.value ∨ ∃ w, l.whole = Value.write w steps s.value
  /-- An array that is looped over keeps its length. -/
  loops : ∀ loop ∈ l.loops, ∃ items,
    l.whole.slot? loop.steps = some (.array items) ∧ items.length = loop.length
  rounds : ∀ i n, l.deed = .round i n → i ≤ n ∧
    ∃ items, l.seen = .array items ∧ items.length = n
  calls : l.calls ≤ v.depth
  called : ∀ r, l.deed = .call r → (p.recordCheck? r).isSome ∧ l.seen.isComposite ∧
    l.state.value.slot? (l.place.steps l.state.counters) = some l.seen

/-- What holds of all the looks at a value and its parts. -/
structure Watches (p : Program) (s : State) (steps : List Step) (v : Value) (ls : List Look) :
    Prop where
  fits : ∀ l ∈ ls, Fits p s steps v l
  spares : ls.Pairwise Look.Spares
  tested : ∀ l ∈ ls, ∀ r, l.deed = .call r → l.Tested ls

section

variable {p : Program} {s : State} {steps : List Step} {v : Value} {l : Look}

theorem Fits.look {place : Place} {deed : Deed} (hg : place.Guarded s.counters s.value)
    (hv : s.read place = v) (hr : deed.isRound = false) (hc : ∀ r, deed ≠ .call r) :
    Fits p s (place.steps s.counters) v (s.look deed place) where
  guarded := hg
  place := ⟨[], by simp [Look.steps, State.look], Or.inr hv⟩
  whole := Or.inl rfl
  loops := by simp [State.look]
  rounds := by
    rintro i n hi
    have hi : deed = .round i n := hi
    simp [hi, Deed.isRound] at hr
  calls := Nat.zero_le _
  called := fun r h => absurd h (hc r)

theorem Fits.call {place : Place} {r : RecordId} (hr : (p.recordCheck? r).isSome)
    (hc : v.isComposite) (hslot : s.value.slot? (place.steps s.counters) = some v) :
    Fits p s (place.steps s.counters) v { s.look (.call r) place with calls := 1 } := by
  have hv : s.read place = v := Place.read_of_slot? hslot
  exact {
    guarded := Place.guarded_of_slot? hslot
    place := ⟨[], by simp [Look.steps, State.look], Or.inr hv⟩
    whole := Or.inl rfl
    loops := by simp [State.look]
    rounds := fun _ _ hi => nomatch hi
    calls := by
      have := Value.depth_get_lt hc ""
      change 1 ≤ v.depth
      omega
    called := by
      rintro r' ⟨⟩
      exact ⟨hr, by rw [Look.seen]; exact hv ▸ hc, by rw [Look.seen]; exact hv.symm ▸ hslot⟩ }

theorem Fits.inside {t : State} {name : String} (hc : v.isComposite)
    (hslot : s.value.slot? steps = some v) (h : Fits p t [.field name] (v.get name) l) :
    Fits p s steps v (l.inside s steps) where
  guarded := h.guarded
  place := by
    obtain ⟨rest, hsteps, hseen⟩ := h.place
    refine ⟨.field name :: rest, ?_, hseen⟩
    rw [Look.steps_inside, hsteps]
    rfl
  whole := Or.inr ⟨l.whole, rfl⟩
  loops := by
    intro loop hloop
    obtain ⟨inner, hinner, rfl⟩ := List.mem_map.1 hloop
    obtain ⟨items, hitems, hlen⟩ := h.loops inner hinner
    refine ⟨items, ?_, hlen⟩
    rw [Value.slot?_append]
    change ((Value.write l.whole steps s.value).slot? steps).bind _ = _
    rw [Value.slot?_write _ hslot]
    exact hitems
  rounds := h.rounds
  calls := by
    have := Value.depth_get_lt hc name
    rw [← Value.get_eq_fields] at this
    exact Nat.lt_of_le_of_lt h.calls this
  called := h.called

section

variable {t : State} {items now : List Value} {i : Nat}

theorem Fits.item {u a : Value} (hs : s.value.slot? steps = some a)
    (ht : ∃ w, t.value = Value.write w steps s.value)
    (hnow : t.value.slot? steps = some (.array now)) (hlen : now.length = items.length)
    (hu : items[i]? = some u) (h : Fits p t (steps ++ [.item (some i)]) u l) :
    Fits p s steps (.array items) (l.within ⟨steps, items.length⟩) where
  guarded := h.guarded
  place := by
    obtain ⟨rest, hsteps, hseen⟩ := h.place
    refine ⟨.item (some i) :: rest, hsteps.trans (by simp), hseen.imp_right fun hseen => ?_⟩
    rw [Value.along, Option.getD_some, Value.item, hu]
    exact hseen
  whole := by
    obtain ⟨w₀, hw₀⟩ := ht
    refine Or.inr (h.whole.elim (fun hw => ⟨w₀, hw.trans hw₀⟩) ?_)
    rintro ⟨w, hw⟩
    refine ⟨Value.write w [.item (some i)] (.array now), ?_⟩
    change l.whole = _
    rw [hw, Value.write_append w _ hnow, hw₀, Value.write_write _ _ hs]
  loops := by
    intro loop hloop
    rcases List.mem_cons.1 hloop with rfl | hloop
    · rcases h.whole with hw | ⟨w, hw⟩
      · exact ⟨now, hw ▸ hnow, hlen⟩
      · refine ⟨now.modify i (Value.write w []), ?_, by simpa using hlen⟩
        change l.whole.slot? steps = _
        rw [hw, Value.write_append w _ hnow, Value.slot?_write _ hnow]
        rfl
    · exact h.loops loop hloop
  rounds := h.rounds
  calls := Nat.le_trans h.calls (Nat.le_of_lt (Value.depth_lt_array (List.mem_of_getElem? hu)))
  called := h.called

theorem Fits.round {place : Place} (hplace : place.steps t.counters = steps)
    (ht : ∃ w, t.value = Value.write w steps s.value)
    (hnow : t.value.slot? steps = some (.array now)) (hlen : now.length = items.length)
    (hi : i ≤ items.length) :
    Fits p s steps (.array items)
      ((t.look (.round i items.length) place).within ⟨steps, items.length⟩) where
  guarded := Place.guarded_of_slot? (hplace ▸ hnow)
  place := ⟨[], by simpa [Look.steps, State.look, Look.within] using hplace, Or.inl rfl⟩
  whole := Or.inr ht
  loops := by
    intro loop hloop
    obtain rfl := List.mem_singleton.1 hloop
    exact ⟨now, hnow, hlen⟩
  rounds := by
    rintro j n ⟨⟩
    exact ⟨hi, now, Place.read_of_slot? (hplace ▸ hnow), hlen⟩
  calls := Nat.zero_le _
  called := fun r h => nomatch h

end

theorem Watches.nil : Watches p s steps v [] := ⟨by simp, .nil, by simp⟩

theorem Watches.look {place : Place} {deed : Deed} {ls : List Look}
    (hg : place.Guarded s.counters s.value) (hv : s.read place = v) (hr : deed.isRound = false)
    (hcall : ∀ r, deed ≠ .call r) (hc : deed.isConvert = false)
    (h : Watches p s (place.steps s.counters) v ls) :
    Watches p s (place.steps s.counters) v (s.look deed place :: ls) where
  fits := List.forall_mem_cons.2 ⟨.look hg hv hr hcall, h.fits⟩
  spares := .cons (fun l' _ (hconvert : deed.isConvert) => absurd hconvert (by simp [hc])) h.spares
  tested := List.forall_mem_cons.2 ⟨fun r hcalled => absurd hcalled (hcall r),
    fun l hl r hcalled => (h.tested l hl r hcalled).cons⟩

theorem Watches.convert {place : Place} {c : ConversionId}
    (hg : place.Guarded s.counters s.value) (hv : s.read place = v) :
    Watches p s (place.steps s.counters) v [s.look (.convert c) place] where
  fits := List.forall_mem_singleton.2 (.look hg hv rfl fun _ => Deed.noConfusion)
  spares := List.pairwise_singleton _ _
  tested := List.forall_mem_singleton.2 fun _ => Deed.noConfusion

/-- Looks at different parts leave each other alone. -/
theorem spares_of_ne (steps : List Step) {l' : Look} {a b : Step} (hab : a ≠ b)
    (h : steps ++ [a] <+: l.steps) (h' : steps ++ [b] <+: l'.steps) : l.Spares l' := by
  have hboth : ∀ {xs : List Step}, steps ++ [a] <+: xs → steps ++ [b] <+: xs → False := by
    intro xs ha hb
    have hpre := List.prefix_of_prefix_length_le ha hb (by simp)
    have heq := hpre.eq_of_length (by simp)
    exact hab (by simpa using heq)
  exact fun _ => ⟨fun hpre => hboth (h.trans hpre) h', fun hpre => (hboth h (h'.trans hpre)).elim⟩

theorem spares_inside {l' : Look} :
    (l.inside s steps).Spares (l'.inside s steps) ↔ l.Spares l' := by
  rw [Look.Spares, Look.Spares, Look.steps_inside, Look.steps_inside, List.prefix_append_right_inj,
    List.prefix_append_right_inj]
  rfl

end

end Model

end Conform
