import Conform.Proofs.Document.Changes
import Conform.Proofs.Model.Safety
import Conform.Proofs.Program.Script

/-! Runs of the validators of a document that compiles: they never find the program wrong, read
only what is there, come to an end, and never look at what a conversion gave. -/

namespace Conform.Document

section

variable {doc : Document} {r : Resolved} {roots : List Model.Root} {b : Builder TypeId}
  {p : Program} {name : String} {ts : Transforms} {v : Value}

theorem Compiles.watches (h : doc.Compiles r roots b p) (hd : doc.Distinct)
    (hn : name ∈ doc.generate.map (·.name)) (ts : Transforms) (v : Value) :
    Model.Watches p ⟨v, []⟩ [] v (p.looks ts name v) := by
  obtain ⟨root, hroot, rfl⟩ := h.mem_roots hn
  obtain ⟨hvalid, -⟩ := h.advances
  exact h.programs.watches hvalid.flat hvalid.numbered (h.distinct hd) h.names.2 hroot

theorem Compiles.exists_visit (h : doc.Compiles r roots b p) (hd : doc.Distinct)
    (hn : name ∈ doc.generate.map (·.name)) (ts : Transforms) (v : Value) :
    ∃ id, ∀ bound ≥ v.depth, p.validateWithin ts bound name v =
      (b.finish.visit ts id "value" v).map fun w => w.getD v := by
  obtain ⟨root, hroot, rfl⟩ := h.mem_roots hn
  obtain ⟨hvalid, -⟩ := h.advances
  exact ⟨root.node, fun bound hbound => h.programs.validateWithin hvalid.flat hvalid.numbered
    (Or.inr (h.distinct hd)) h.names.2 hroot hbound⟩

theorem Compiles.validateWithin_eq (h : doc.Compiles r roots b p) (hd : doc.Distinct)
    (hn : name ∈ doc.generate.map (·.name)) {bound : Nat} (hbound : v.depth ≤ bound) :
    p.validateWithin ts bound name v = p.validate ts name v := by
  obtain ⟨id, hvisit⟩ := h.exists_visit hd hn ts v
  have hspare : p.validate ts name v = _ := hvisit _ (Nat.le_add_right v.depth Program.spareDepth)
  rw [hvisit bound hbound, hspare]

theorem Compiles.isVerdict (h : doc.Compiles r roots b p) (hd : doc.Distinct)
    (hn : name ∈ doc.generate.map (·.name)) {e : CheckError}
    (he : p.validate ts name v = .error e) : e.isVerdict := by
  obtain ⟨id, hvisit⟩ := h.exists_visit hd hn ts v
  rw [← h.validateWithin_eq hd hn (Nat.le_refl _), hvisit _ (Nat.le_refl _)] at he
  exact Model.visit_isVerdict (map_eq_error.1 he)

end

/-- A validator fails for the sake of the value only. Each record check that is called is there,
and so is the slot of the value that it is called on, since the test of its place came before. -/
theorem validate_isVerdict (doc : Document) (p : Program) (ts : Transforms) (name : String)
    (v : Value) (hd : doc.Distinct) (h : doc.compile = .ok p)
    (hn : name ∈ doc.generate.map (·.name)) :
    (∀ e, p.validate ts name v = .error e → e.isVerdict) ∧
      ∀ l ∈ p.looks ts name v, ∀ record, l.deed = .call record →
        (p.recordCheck? record).isSome ∧ l.Tested (p.looks ts name v) ∧
          l.state.holds (.isObject l.place) ∧
          l.state.value.slot? (l.place.steps l.state.counters) = some l.seen := by
  obtain ⟨r, roots, b, h⟩ := compile_eq_ok.1 h
  have hwatches := h.watches hd hn ts v
  refine ⟨fun e he => ?_, fun l hl record hcall => ?_⟩
  · exact h.isVerdict hd hn he
  · obtain ⟨hsome, hc, hslot⟩ := (hwatches.fits l hl).called record hcall
    exact ⟨hsome, hwatches.tested l hl record hcall, Value.isComposite_iff.1 hc, hslot⟩

theorem validate_isVerdict_threads : ∃ p, threads.Distinct ∧ threads.compile = .ok p ∧
    "parseNote" ∈ threads.generate.map (·.name) ∧
    (∀ e, p.validate ⟨[(1, textOrEmpty)]⟩ "parseNote" untitled = .error e → e.isVerdict) ∧
    ∀ l ∈ p.looks ⟨[(1, textOrEmpty)]⟩ "parseNote" untitled, ∀ record, l.deed = .call record →
      (p.recordCheck? record).isSome ∧
        l.Tested (p.looks ⟨[(1, textOrEmpty)]⟩ "parseNote" untitled) ∧
        l.state.holds (.isObject l.place) ∧
        l.state.value.slot? (l.place.steps l.state.counters) = some l.seen := by
  obtain ⟨p, hp⟩ : ∃ p, threads.compile = .ok p := exists_of_isOk (by decide +kernel)
  have hn : "parseNote" ∈ threads.generate.map (·.name) := by simp [threads]
  exact ⟨p, threads_distinct, hp, hn,
    validate_isVerdict threads p _ _ untitled threads_distinct hp hn⟩

/-- Whatever a run of a validator reads is there: fields are read of objects and arrays, and items
of arrays that are long enough. An array keeps its length while it is looped over. So a script,
which cannot read what is not there and reads lengths again before each round, does the same. -/
theorem reads_guarded (doc : Document) (p : Program) (ts : Transforms) (name : String) (v : Value)
    (hd : doc.Distinct) (h : doc.compile = .ok p) (hn : name ∈ doc.generate.map (·.name)) :
    (∀ l ∈ p.looks ts name v, l.Guarded ∧
      (∀ loop ∈ l.loops, ∃ items,
        l.whole.slot? loop.steps = some (.array items) ∧ items.length = loop.length) ∧
      ∀ i n, l.deed = .round i n → i ≤ n ∧ ∃ items, l.seen = .array items ∧ items.length = n) ∧
    p.script ts name v = (p.validate ts name v).mapError .failed := by
  obtain ⟨r, roots, b, h⟩ := compile_eq_ok.1 h
  have hfits := (h.watches hd hn ts v).fits
  refine ⟨fun l hl => ⟨(hfits l hl).guarded, (hfits l hl).loops, (hfits l hl).rounds⟩, ?_⟩
  refine Program.script_eq fun l hl => ⟨(hfits l hl).guarded, fun i n hi => ?_⟩
  obtain ⟨-, items, hseen, hlen⟩ := (hfits l hl).rounds i n hi
  rw [hseen]
  exact hlen

theorem reads_guarded_threads : ∃ p, threads.Distinct ∧ threads.compile = .ok p ∧
    "parseNote" ∈ threads.generate.map (·.name) ∧
    (∀ l ∈ p.looks ⟨[(1, textOrEmpty)]⟩ "parseNote" untitled, l.Guarded ∧
      (∀ loop ∈ l.loops, ∃ items,
        l.whole.slot? loop.steps = some (.array items) ∧ items.length = loop.length) ∧
      ∀ i n, l.deed = .round i n → i ≤ n ∧ ∃ items, l.seen = .array items ∧ items.length = n) ∧
    p.script ⟨[(1, textOrEmpty)]⟩ "parseNote" untitled =
      (p.validate ⟨[(1, textOrEmpty)]⟩ "parseNote" untitled).mapError .failed := by
  obtain ⟨p, hp⟩ : ∃ p, threads.compile = .ok p := exists_of_isOk (by decide +kernel)
  have hn : "parseNote" ∈ threads.generate.map (·.name) := by simp [threads]
  exact ⟨p, threads_distinct, hp, hn, reads_guarded threads p _ _ untitled threads_distinct hp hn⟩

/-- A validator comes to an end, with no more record checks under way at once than the value has
levels, and whatever a transform gives is not looked at again. -/
theorem validate_ends (doc : Document) (p : Program) (ts : Transforms) (name : String) (v : Value)
    (hd : doc.Distinct) (h : doc.compile = .ok p) (hn : name ∈ doc.generate.map (·.name)) :
    (∀ bound ≥ v.depth, p.validateWithin ts bound name v = p.validate ts name v) ∧
      p.validate ts name v ≠ .error .tooDeep ∧
      (∀ l ∈ p.looks ts name v, l.calls ≤ v.depth ∧
        (l.deed.isRound ∨ l.seen = v.along l.steps)) ∧
      (p.looks ts name v).Pairwise Look.Spares := by
  obtain ⟨r, roots, b, h⟩ := compile_eq_ok.1 h
  have hwatches := h.watches hd hn ts v
  refine ⟨fun bound hbound => h.validateWithin_eq hd hn hbound, fun he => ?_, fun l hl => ?_,
    hwatches.spares⟩
  · cases h.isVerdict hd hn he
  · have hfits := hwatches.fits l hl
    obtain ⟨rest, hrest, hseen⟩ := hfits.place
    exact ⟨hfits.calls, by rwa [hrest]⟩

theorem validate_ends_threads : ∃ p, threads.Distinct ∧ threads.compile = .ok p ∧
    "parseNote" ∈ threads.generate.map (·.name) ∧
    (∀ bound ≥ untitled.depth, p.validateWithin ⟨[(1, textOrEmpty)]⟩ bound "parseNote" untitled =
      p.validate ⟨[(1, textOrEmpty)]⟩ "parseNote" untitled) ∧
    p.validate ⟨[(1, textOrEmpty)]⟩ "parseNote" untitled ≠ .error .tooDeep ∧
    (∀ l ∈ p.looks ⟨[(1, textOrEmpty)]⟩ "parseNote" untitled, l.calls ≤ untitled.depth ∧
      (l.deed.isRound ∨ l.seen = untitled.along l.steps)) ∧
    (p.looks ⟨[(1, textOrEmpty)]⟩ "parseNote" untitled).Pairwise Look.Spares := by
  obtain ⟨p, hp⟩ : ∃ p, threads.compile = .ok p := exists_of_isOk (by decide +kernel)
  have hn : "parseNote" ∈ threads.generate.map (·.name) := by simp [threads]
  exact ⟨p, threads_distinct, hp, hn, validate_ends threads p _ _ untitled threads_distinct hp hn⟩

/-- The texts of a note and of its reply are converted, each for itself. -/
example : (threads.compile.toOption.map fun p =>
    ((p.looks ⟨[(1, textOrEmpty)]⟩ "parseNote" untitled).filter (·.deed.isConvert)).map (·.steps)) =
      some [[.field "text"], [.field "replies", .item (some 0), .field "text"]] := by
  decide +kernel

end Conform.Document
