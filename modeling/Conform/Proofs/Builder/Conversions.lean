import Conform.Proofs.Builder.Compile
import Conform.Proofs.Builder.Image
import Conform.Proofs.Model.Acts

/-! Where conversions are written: at the places of types that are the target of a hook or that
have one among what is left of them, and nowhere else. -/

namespace Conform

variable {D : Type} [DecidableEq D]

/-- The site and the type of what is written out where a type is: of the type itself, and of the
elements of the arrays that are left of it. -/
inductive Standing (o : Oracle D) (hooks : List (Hook D)) :
    Model.Site → D → Model.Site → D → Prop
  | self {site : Model.Site} {d : D} : Standing o hooks site d site d
  | item {site t : Model.Site} {d a e c : D} : Leaf o hooks d a → hook? hooks a = none →
      o.trait? a = some .array → o.arrayElement a = some e →
      Standing o hooks site.item e t c → Standing o hooks site d t c

/-- Whether statements that are written for types at sites convert what they should: there is a
conversion for a place exactly if its target is left of the type of the place. -/
def Converts (o : Oracle D) (hooks : List (Hook D)) (starts : List (Model.Site × D))
    (body : List Stmt) : Prop :=
  ∀ n place, .convert n place ∈ allActs body ↔
    ∃ start ∈ starts, ∃ t d, Standing o hooks start.1 start.2 t d ∧ t.place = place ∧
      ∃ k ∈ hooks, k.conversion = n ∧ Leaf o hooks d k.result

namespace Builder

variable {o : Oracle D} {hooks : List (Hook D)} {b : Builder D} {d : D} {id : NodeId}
  {site : Model.Site} {body : List Stmt}

/-- The conversion of a node is that of a hook whose target is left of its type. -/
theorem Valid.conversion?_eq_some (h : b.Valid o hooks [])
    (hh : (hooks.map (·.result)).Nodup) (hd : (d, id) ∈ b.known) {n : ConversionId} :
    b.finish.conversion? id = some n ↔
      ∃ k ∈ hooks, k.conversion = n ∧ Leaf o hooks d k.result := by
  constructor
  · intro hn
    obtain ⟨kind, hkind, hc⟩ := List.exists_of_findSome?_eq_some hn
    cases kind <;> cases hc
    rcases h.part hd hkind with ⟨l, y, hl, hy, hk⟩ | ⟨hb, -⟩
    · obtain ⟨k, hfind, rfl⟩ := (hk ▸ h.suits hy).of_conversion
      obtain rfl : k.result = l := by simpa using List.find?_some hfind
      exact ⟨k, List.mem_of_find?_eq_some hfind, rfl, hl⟩
    · cases hb
  · rintro ⟨k, hk, rfl, hl⟩
    obtain ⟨y, hy, hpart⟩ := h.exists_part hd hl
    have hkind := h.kind_hooked hh hy hk rfl
    have hpart : .conversion k.conversion ∈ b.finish.parts id := by
      rcases hpart with hp | ⟨hb, -⟩
      · rwa [hkind] at hp
      · simp [isBooleanPart, isBoolean, booleanLiteral?, hkind] at hb
    cases hn : b.finish.conversion? id with
    | none => simpa [NodeKind.conversion?] using List.findSome?_eq_none_iff.1 hn _ hpart
    | some n =>
      obtain ⟨kind, hmem, hc⟩ := List.exists_of_findSome?_eq_some hn
      cases kind <;> cases hc
      rw [h.whole.single id _ _ hmem hpart]

theorem Valid.standing (h : b.Valid o hooks []) {t : Model.Site} {x : NodeId}
    (hin : b.finish.Inside site id t x) (hd : (d, id) ∈ b.known) :
    ∃ c, (c, x) ∈ b.known ∧ Standing o hooks site d t c := by
  induction hin generalizing d with
  | self => exact ⟨d, hd, .self⟩
  | @item site t id element x hpart _ ih =>
    rcases h.part hd hpart with ⟨l, y, hl, hy, hk⟩ | ⟨hb, -⟩
    · obtain ⟨hhook, htrait, x, e, hx', he, hx⟩ := h.of_array hy List.not_mem_nil hk
      cases hx'
      obtain ⟨c, hc, hst⟩ := ih hx
      exact ⟨c, hc, .item hl hhook htrait he hst⟩
    · cases hb

theorem Valid.inside (h : b.Valid o hooks []) {t : Model.Site} {c : D}
    (hst : Standing o hooks site d t c) (hd : (d, id) ∈ b.known) :
    ∃ x, (c, x) ∈ b.known ∧ b.finish.Inside site id t x := by
  induction hst generalizing id with
  | self => exact ⟨id, hd, .self⟩
  | @item site t d a e c hl hhook htrait he _ ih =>
    obtain ⟨z, e', hpart, he', hz⟩ := h.exists_array_part hd hl hhook htrait
    obtain rfl := Option.some.inj (he.symm.trans he')
    obtain ⟨x, hx, hin⟩ := ih hz
    exact ⟨x, hx, .item hpart hin⟩

theorem Valid.exists_convert (h : b.Valid o hooks []) (hh : (hooks.map (·.result)).Nodup)
    (hd : (d, id) ∈ b.known) {n : ConversionId} {place : Place} :
    (∃ t x, b.finish.Inside site id t x ∧ b.finish.ActsAt t x (.convert n place)) ↔
      ∃ t c, Standing o hooks site d t c ∧ t.place = place ∧
        ∃ k ∈ hooks, k.conversion = n ∧ Leaf o hooks c k.result := by
  constructor
  · rintro ⟨t, x, hin, hact⟩
    obtain ⟨c, hc, hst⟩ := h.standing hin hd
    cases hact with
    | convert hn => exact ⟨t, c, hst, rfl, (h.conversion?_eq_some hh hc).1 hn⟩
  · rintro ⟨t, c, hst, rfl, hk⟩
    obtain ⟨x, hx, hin⟩ := h.inside hst hd
    exact ⟨t, x, hin, .convert ((h.conversion?_eq_some hh hx).2 hk)⟩

theorem Valid.converts_stmts (h : b.Valid o hooks []) (hh : (hooks.map (·.result)).Nodup)
    (hd : (d, id) ∈ b.known) (hs : b.finish.stmts site id = .ok body) :
    Converts o hooks [(site, d)] body := by
  intro n place
  rw [Model.mem_acts_stmts h.flat hs, h.exists_convert hh hd]
  simp

theorem Valid.converts_fieldStmts (h : b.Valid o hooks []) (hh : (hooks.map (·.result)).Nodup)
    {fields : List (String × D)} {members : List (String × NodeId)}
    (hf : List.Forall₂ (fun f m => m.1 = f.1 ∧ (f.2, m.2) ∈ b.known) fields members)
    (hs : b.finish.fieldStmts members = .ok body) :
    Converts o hooks (fields.map fun f => (.field f.1, f.2)) body := by
  intro n place
  rw [Model.mem_acts_fieldStmts h.flat hs]
  constructor
  · rintro ⟨m, hm, hact⟩
    obtain ⟨f, hfm, hname, hknown⟩ := exists_of_mem_right hf hm
    rw [hname] at hact
    exact ⟨_, List.mem_map_of_mem hfm, (h.exists_convert hh hknown).1 hact⟩
  · rintro ⟨start, hstart, hst⟩
    obtain ⟨f, hfm, rfl⟩ := List.mem_map.1 hstart
    obtain ⟨m, hm, hname, hknown⟩ := exists_of_mem_left hf hfm
    refine ⟨m, hm, ?_⟩
    rw [hname]
    exact (h.exists_convert hh hknown).2 hst

end Builder

end Conform
