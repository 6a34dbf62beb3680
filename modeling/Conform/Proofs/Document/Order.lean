import Conform.Proofs.Document.Requests
import Conform.Proofs.Schema.Matching

/-! Whether a document compiles depends on the order of its requests exactly where it compiles in
some order and one of them does not compile alone. A union that is entered through one of its own
fields is still being folded when it is met again. -/

namespace Conform.Document

/-- Whether a document compiles when these validators are asked for. -/
def CompilesWith (doc : Document) (gs : List GenerateSpec) : Prop :=
  ∃ p, Document.compile { doc with generate := gs } = .ok p

variable {doc : Document} {r s : Resolved} {g : GenerateSpec} {gs gs' : List GenerateSpec}

theorem exists_compile (doc : Document) (hn : (Fields.names doc.types).Nodup) : (∃ p, doc.compile = .ok p) ↔
    ∃ r, doc.resolve = .ok r ∧ (r.hooks.map (·.result)).Nodup ∧
      Compilable r.table.oracle r.hooks (r.requests.map (·.root)) := by
  have hlisted : ∀ {r}, doc.resolve = .ok r → r.table.oracle.Listed r.hooks ∧
      ∀ q ∈ r.requests, q.root ∈ r.table.oracle.descriptors := by
    intro r hr
    have hs := resolve_stands hn hr
    refine ⟨hs.declares.tidy.listed r.hooks, fun q hq => ?_⟩
    obtain ⟨g, -, -, hq⟩ := exists_of_mem_right hs.requests hq
    exact List.mem_range.2 (hq.lt hs.declares.tidy)
  constructor
  · rintro ⟨p, h⟩
    obtain ⟨r, hr, hp⟩ := bind_eq_ok.1 h
    have hr := mapError_eq_ok.1 hr
    obtain ⟨hl, hd⟩ := hlisted hr
    exact ⟨r, hr, (Conform.exists_compile hl hd).1 ⟨p, mapError_eq_ok.1 hp⟩⟩
  · rintro ⟨r, hr, hc⟩
    obtain ⟨hl, hd⟩ := hlisted hr
    obtain ⟨p, hp⟩ := (Conform.exists_compile hl hd).2 hc
    exact ⟨p, bind_eq_ok.2 ⟨r, mapError_eq_ok.2 hr, mapError_eq_ok.2 hp⟩⟩

theorem compilable_embeds {f : TypeId → TypeId} {ds : List TypeId}
    (hs : doc.Stands s) (hf : s.table.Embeds f r.table)
    (hhooks : r.hooks.map (·.result) = (s.hooks.map (·.result)).map f)
    (hds : ∀ d ∈ ds, d < s.table.entries.size) :
    ((s.hooks.map (·.result)).Nodup ∧ Compilable s.table.oracle s.hooks ds) ↔
      (r.hooks.map (·.result)).Nodup ∧ Compilable r.table.oracle r.hooks (ds.map f) := by
  have hlt : ∀ d ∈ s.hooks.map (·.result), d < s.table.entries.size := by
    intro d hd
    obtain ⟨k, hk, rfl⟩ := List.mem_map.1 hd
    obtain ⟨c, -, hc⟩ := exists_of_mem_right hs.hooks hk
    exact hc.lt hs.declares.tidy
  have hm := hf.oracle hs.declares.tidy hlt hhooks
  have hall : List.Forall₂ (fun x y => x < s.table.entries.size ∧ y = f x) ds (ds.map f) := by
    rw [List.forall₂_map_right_iff, List.forall₂_same]
    exact fun d hd => ⟨hds d hd, rfl⟩
  have hnodup : (r.hooks.map (·.result)).Nodup ↔ (s.hooks.map (·.result)).Nodup := by
    rw [hhooks]
    exact ⟨List.Nodup.of_map f, fun h => h.map_on fun x hx y hy he =>
      hf.injective (hlt x hx) (hlt y hy) he⟩
  rw [hnodup]
  exact and_congr_right fun _ => ⟨.of_matches hm hall, .of_matches hm.symm hall.flip⟩

theorem compilesWith_single (doc : Document) (hn : (Fields.names doc.types).Nodup)
    (hr : doc.resolve = .ok r) :
    List.Forall₂ (fun g q => doc.CompilesWith [g] ↔ (r.hooks.map (·.result)).Nodup ∧
      Compilable r.table.oracle r.hooks [q.root]) doc.generate r.requests := by
  obtain ⟨t, ht, -, hg, hc⟩ := exists_resolve.1 ⟨r, hr⟩
  have halone : ∀ g ∈ doc.generate, ∃ s, Document.resolve { doc with generate := [g] } = .ok s :=
    fun g hmem => exists_resolve.2 ⟨t, ht, by simp, by simpa using hg g hmem, hc⟩
  refine (List.forall₂_and_left _ _).2 ⟨halone, resolve_embeds hn hr⟩ |>.imp fun g q h => ?_
  obtain ⟨⟨s, hs⟩, h⟩ := h
  obtain ⟨f, d, hroots, hq, hf, hhooks⟩ := h hs
  have hstands : Document.Stands { doc with generate := [g] } s := resolve_stands hn hs
  have hd : d < s.table.entries.size := by
    obtain ⟨q', hq', rfl⟩ := List.mem_map.1 (hroots ▸ List.mem_singleton_self d)
    obtain ⟨g', -, -, hspells⟩ := exists_of_mem_right hstands.requests hq'
    exact hspells.lt hstands.declares.tidy
  have hiff := compilable_embeds hstands hf hhooks fun c hc => List.mem_singleton.1 hc ▸ hd
  rw [hq, ← List.map_singleton, ← hiff, ← hroots]
  constructor
  · intro hp
    obtain ⟨s', hs', hp⟩ := (exists_compile { doc with generate := [g] } hn).1 hp
    obtain rfl := Except.ok.inj (hs.symm.trans hs')
    exact hp
  · exact fun hp => (exists_compile { doc with generate := [g] } hn).2 ⟨s, hs, hp⟩

theorem CompilesWith.single (hn : (Fields.names doc.types).Nodup)
    (h : doc.CompilesWith (g :: gs)) : doc.CompilesWith [g] := by
  obtain ⟨r, hr, hnodup, hc⟩ := (exists_compile { doc with generate := g :: gs } hn).1 h
  have hall := compilesWith_single { doc with generate := g :: gs } hn hr
  generalize r.requests = requests at hall hc
  cases hall with
  | cons hiff _ => exact hiff.2 ⟨hnodup, hc.head⟩

theorem CompilesWith.of_each (hn : (Fields.names doc.types).Nodup) (hp : gs.Perm gs')
    (h : doc.CompilesWith gs') (hgs : ∀ g ∈ gs, doc.CompilesWith [g]) : doc.CompilesWith gs := by
  obtain ⟨r', hr', hnodup', -⟩ := (exists_compile { doc with generate := gs' } hn).1 h
  obtain ⟨t, ht, hnames, hg, hc⟩ := exists_resolve.1 ⟨r', hr'⟩
  obtain ⟨r, hr⟩ : ∃ r, Document.resolve { doc with generate := gs } = .ok r :=
    exists_resolve.2 ⟨t, ht, (hp.map _).nodup_iff.2 hnames, fun g hmem => hg g (hp.mem_iff.1 hmem),
      hc⟩
  have hall := compilesWith_single { doc with generate := gs } hn hr
  cases gs with
  | nil => exact (List.nil_perm.1 hp) ▸ h
  | cons g gs =>
    have heach : ∀ q ∈ r.requests, (r.hooks.map (·.result)).Nodup ∧
        Compilable r.table.oracle r.hooks [q.root] := by
      intro q hq
      obtain ⟨g', hg', hiff⟩ := exists_of_mem_right hall hq
      exact hiff.1 (hgs g' hg')
    obtain ⟨q, hq, -⟩ := exists_of_mem_left hall (List.mem_cons_self : g ∈ g :: gs)
    refine (exists_compile { doc with generate := g :: gs } hn).2
      ⟨r, hr, (heach q hq).1, .of_each fun d hd => ?_⟩
    obtain ⟨q, hq, rfl⟩ := List.mem_map.1 hd
    exact (heach q hq).2

/-- The order of requests does not matter exactly if each of them compiles alone, or they do not
compile in any order. -/
theorem order_iff (doc : Document) (hn : (Fields.names doc.types).Nodup) :
    (∀ gs, gs.Perm doc.generate → (doc.CompilesWith gs ↔ doc.CompilesWith doc.generate)) ↔
      ((∃ gs, gs.Perm doc.generate ∧ doc.CompilesWith gs) →
        ∀ g ∈ doc.generate, doc.CompilesWith [g]) := by
  constructor
  · rintro h ⟨gs, hp, hgs⟩ g hg
    obtain ⟨before, after, hsplit⟩ := List.append_of_mem hg
    have hfirst : (g :: (before ++ after)).Perm doc.generate := by
      rw [hsplit]
      exact List.perm_middle.symm
    exact ((h _ hfirst).2 ((h gs hp).1 hgs)).single hn
  · intro h gs hp
    constructor
    · exact fun hgs => .of_each hn hp.symm hgs (h ⟨gs, hp, hgs⟩)
    · intro hgs
      exact .of_each hn hp hgs fun g hg => h ⟨doc.generate, .refl _, hgs⟩ g (hp.mem_iff.1 hg)

/-- A union that is a part of another one, which is a field of a record in the first. -/
def tangled : Document :=
  { empty with
    types := [("R", .record [("f", .name "V")]), ("U", .union [.name "R", .name "string"]),
      ("V", .union [.name "U", .name "number"])]
    generate := [⟨"parseU", .name "U"⟩, ⟨"parseR", .name "R"⟩] }

theorem compilesWith_of_isOk (h : (Document.compile { doc with generate := gs }).isOk) :
    doc.CompilesWith gs :=
  exists_of_isOk h

def untangled : Document :=
  { tangled with generate := [⟨"parseR", .name "R"⟩, ⟨"parseV", .name "V"⟩] }

theorem order_iff_untangled : (Fields.names untangled.types).Nodup ∧
    ∀ gs, gs.Perm untangled.generate →
      (untangled.CompilesWith gs ↔ untangled.CompilesWith untangled.generate) := by
  refine ⟨by decide, (order_iff untangled (by decide)).2 fun _ g hg => compilesWith_of_isOk ?_⟩
  have hall : ∀ g ∈ untangled.generate,
      (Document.compile { untangled with generate := [g] }).isOk := by decide +kernel
  exact hall g hg

/-- The first union compiles after the record only. -/
theorem tangled_depends_on_order : ¬ ∀ gs, gs.Perm tangled.generate →
    (tangled.CompilesWith gs ↔ tangled.CompilesWith tangled.generate) := by
  intro h
  have hswap : tangled.CompilesWith [⟨"parseR", .name "R"⟩, ⟨"parseU", .name "U"⟩] :=
    compilesWith_of_isOk (by decide +kernel)
  obtain ⟨p, hp⟩ := (h _ (.swap ..)).1 hswap
  have herror : (Document.compile tangled).isOk = false := by decide +kernel
  rw [show Document.compile tangled = .ok p from hp] at herror
  cases herror

end Conform.Document
