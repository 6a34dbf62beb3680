import Mathlib.Tactic.Common
import Conform.Model.Builder

/-! Folding leaves into the members of a union. What was folded in is a member afterwards, unless
it is a boolean or one of its literals, for which another boolean stands. -/

namespace Conform


namespace NodeKind

/-- A kind without its parts. -/
def outline : NodeKind → NodeKind
  | .array _ => .array none
  | .union _ => .union []
  | .record r _ => .record r []
  | k => k

end NodeKind

namespace Builder

variable {D : Type}

/-- Whether a builder has the nodes and the known types of an earlier one, as they were. -/
structure Grows (b b' : Builder D) : Prop where
  node : ∀ id < b.nodes.size, b'.node? id = b.node? id
  size : b.nodes.size ≤ b'.nodes.size
  known : ∀ e ∈ b.known, e ∈ b'.known
  both : ∀ id, b.bothBooleans = some id → b'.bothBooleans = some id

theorem Grows.refl (b : Builder D) : b.Grows b :=
  ⟨fun _ _ => rfl, Nat.le_refl _, fun _ h => h, fun _ h => h⟩

theorem Grows.trans {b b' b'' : Builder D} (h : b.Grows b') (h' : b'.Grows b'') : b.Grows b'' :=
  ⟨fun id hid => (h'.node id (Nat.lt_of_lt_of_le hid h.size)).trans (h.node id hid),
    Nat.le_trans h.size h'.size, fun e he => h'.known e (h.known e he),
    fun id hid => h'.both id (h.both id hid)⟩

theorem Grows.kind {b b' : Builder D} (h : b.Grows b') {id : NodeId} (hid : id < b.nodes.size) :
    b'.kind id = b.kind id := by
  rw [Builder.kind, h.node id hid, Builder.kind]

/-- Whether a builder still has the types of an earlier one and the kinds of its nodes, but for
their parts. -/
structure Later (b b' : Builder D) : Prop where
  known : ∀ e ∈ b.known, e ∈ b'.known
  outline : ∀ id < b.nodes.size, (b'.kind id).outline = (b.kind id).outline
  both : ∀ id, b.bothBooleans = some id → b'.bothBooleans = some id

theorem Grows.later {b b' : Builder D} (h : b.Grows b') : b.Later b' :=
  ⟨h.known, fun id hid => by rw [h.kind hid], h.both⟩

theorem traits_of_outline {b b' : Builder D} {x : NodeId} (h : (b'.kind x).outline = (b.kind x).outline) :
    b'.booleanLiteral? x = b.booleanLiteral? x ∧ b'.isBoolean x = b.isBoolean x ∧
      b'.isConversion x = b.isConversion x := by
  unfold booleanLiteral? isBoolean isConversion
  cases hk : b.kind x <;> cases hk' : b'.kind x <;> simp_all [NodeKind.outline]

theorem lt_size_of_kind {b : Builder D} {id : NodeId} (h : b.kind id ≠ .any) :
    id < b.nodes.size := by
  by_contra hn
  rw [kind, node?, Array.getElem?_eq_none (Nat.le_of_not_lt hn)] at h
  exact h rfl

/-! ### The node of both booleans -/

/-- Whether the node of both booleans is a boolean. -/
def BothBoolean (b : Builder D) : Prop := ∀ id, b.bothBooleans = some id → b.kind id = .boolean

section

variable {b : Builder D}

theorem known_both : b.both.2.known = b.known := by
  unfold both
  cases b.bothBooleans <;> rfl

theorem recordCount_both : b.both.2.recordCount = b.recordCount := by
  unfold both
  cases b.bothBooleans <;> rfl

theorem folding_both : b.both.2.folding = b.folding := by
  unfold both
  cases b.bothBooleans <;> rfl

theorem bothBooleans_both : b.both.2.bothBooleans = some b.both.1 := by
  unfold both
  cases h : b.bothBooleans with
  | none => rfl
  | some id => simpa using h

theorem both_both : b.both.2.both.2 = b.both.2 := by
  conv_lhs => rw [both]
  rw [bothBooleans_both]

theorem grows_both : b.Grows b.both.2 := by
  unfold both
  cases hb : b.bothBooleans with
  | none =>
    refine ⟨?_, ?_, fun _ h => h, fun id h => ?_⟩
    · intro id hid
      simp [node?, addNode, Array.getElem?_push, Nat.ne_of_lt hid]
    · simp [addNode]
    · rw [hb] at h
      cases h
  | some id => exact .refl b

theorem kind_both (hb : b.BothBoolean) : b.both.2.kind b.both.1 = .boolean := by
  unfold both
  cases h : b.bothBooleans with
  | none => simp [kind, node?, addNode]
  | some id => exact hb id h

theorem BothBoolean.both (hb : b.BothBoolean) : b.both.2.BothBoolean := by
  intro id hid
  rw [bothBooleans_both] at hid
  rw [← Option.some.inj hid]
  exact kind_both hb

end

/-! ### What is gathered -/

def isBooleanPart (b : Builder D) (id : NodeId) : Bool :=
  b.isBoolean id || (b.booleanLiteral? id).isSome

/-- Whether `folded` stands for the leaves in `X`. -/
structure Gathers (b : Builder D) (X : NodeId → Prop) (folded : List NodeId) : Prop where
  sound : ∀ y ∈ folded, X y ∨ b.bothBooleans = some y ∧ ∃ t f, X t ∧ X f ∧
    b.booleanLiteral? t = some true ∧ b.booleanLiteral? f = some false
  complete : ∀ y, X y → y ∈ folded ∨ b.isBooleanPart y ∧ ∃ z ∈ folded, b.isBoolean z
  single : ∀ y ∈ folded, ∀ z ∈ folded, b.isConversion y → b.isConversion z → y = z

theorem Gathers.nil (b : Builder D) : b.Gathers (fun _ => False) [] :=
  ⟨by simp, by simp, by simp⟩

section

variable {b b' : Builder D} {X Y : NodeId → Prop} {folded folded' : List NodeId} {x : NodeId}
  {union : NodeId}

theorem Gathers.congr (h : b.Gathers X folded) (hXY : ∀ y, X y ↔ Y y) : b.Gathers Y folded := by
  have : X = Y := funext fun y => propext (hXY y)
  rwa [← this]

theorem Gathers.mono (h : b.Gathers X folded)
    (hX : ∀ y, X y → b'.booleanLiteral? y = b.booleanLiteral? y ∧
      b'.isBoolean y = b.isBoolean y ∧ b'.isConversion y = b.isConversion y)
    (hboth : ∀ y, b.bothBooleans = some y → b'.bothBooleans = some y ∧ b'.kind y = b.kind y) :
    b'.Gathers X folded := by
  have hkind : ∀ y ∈ folded,
      b'.isBoolean y = b.isBoolean y ∧ b'.isConversion y = b.isConversion y := by
    intro y hy
    rcases h.sound y hy with hy | ⟨hy, -⟩
    · exact (hX y hy).2
    · simp only [isBoolean, isConversion, (hboth y hy).2, and_self]
  refine ⟨?_, ?_, ?_⟩
  · intro y hy
    rcases h.sound y hy with hy | ⟨hy, t, f, ht, hf, hlt, hlf⟩
    · exact Or.inl hy
    · exact Or.inr ⟨(hboth y hy).1, t, f, ht, hf, by rw [(hX t ht).1, hlt], by rw [(hX f hf).1, hlf]⟩
  · intro y hy
    rcases h.complete y hy with hmem | ⟨hp, z, hz, hbz⟩
    · exact Or.inl hmem
    · refine Or.inr ⟨?_, z, hz, by rwa [(hkind z hz).1]⟩
      simpa only [isBooleanPart, (hX y hy).1, (hX y hy).2.1] using hp
  · intro y hy z hz hcy hcz
    rw [(hkind y hy).2] at hcy
    rw [(hkind z hz).2] at hcz
    exact h.single y hy z hz hcy hcz

/-- Leaves that stand for others do so wherever they are gathered. -/
theorem Gathers.compose (hb : b.BothBoolean) (h : b.Gathers (fun y => X y ∨ y ∈ folded) folded')
    (hY : b.Gathers Y folded) : b.Gathers (fun y => X y ∨ Y y) folded' := by
  have hlit : ∀ {y v}, (X y ∨ y ∈ folded) → b.booleanLiteral? y = some v → X y ∨ Y y := by
    intro y v hy hl
    rcases hy with hy | hy
    · exact Or.inl hy
    · rcases hY.sound y hy with hy | ⟨hy, -⟩
      · exact Or.inr hy
      · rw [booleanLiteral?, hb y hy] at hl
        cases hl
  refine ⟨?_, ?_, h.single⟩
  · intro y hy
    rcases h.sound y hy with (hy | hy) | ⟨hy, t, f, ht, hf, hlt, hlf⟩
    · exact Or.inl (Or.inl hy)
    · rcases hY.sound y hy with hy | ⟨hy, t, f, ht, hf, hl⟩
      · exact Or.inl (Or.inr hy)
      · exact Or.inr ⟨hy, t, f, Or.inr ht, Or.inr hf, hl⟩
    · exact Or.inr ⟨hy, t, f, hlit ht hlt, hlit hf hlf, hlt, hlf⟩
  · rintro y (hy | hy)
    · exact h.complete y (Or.inl hy)
    · rcases hY.complete y hy with hy | ⟨hp, z, hz, hbz⟩
      · exact h.complete y (Or.inr hy)
      · rcases h.complete z (Or.inr hz) with hz | ⟨-, hall⟩
        · exact Or.inr ⟨hp, z, hz, hbz⟩
        · exact Or.inr ⟨hp, hall⟩

theorem Gathers.grow (hb : b.BothBoolean) (h : b.Gathers X folded) (hg : b.Grows b')
    (hX : ∀ y, X y → y < b.nodes.size) : b'.Gathers X folded := by
  refine h.mono ?_ ?_
  · intro y hy
    have := hg.kind (hX y hy)
    simp only [booleanLiteral?, isBoolean, isConversion, this, and_self]
  · intro y hy
    have hlt : y < b.nodes.size := lt_size_of_kind (by rw [hb y hy]; simp)
    exact ⟨hg.both y hy, hg.kind hlt⟩

theorem Gathers.add (h : b.Gathers X folded) (hmem : ∀ y, y ∈ folded' ↔ y ∈ folded ∨ y = x)
    (hx : b.isConversion x = false ∨ ∀ y ∈ folded, b.isConversion y = false) :
    b.Gathers (fun y => X y ∨ y = x) folded' := by
  refine ⟨?_, ?_, ?_⟩
  · intro y hy
    rcases (hmem y).1 hy with hy | rfl
    · rcases h.sound y hy with hy | ⟨hy, t, f, ht, hf, hl⟩
      · exact Or.inl (Or.inl hy)
      · exact Or.inr ⟨hy, t, f, Or.inl ht, Or.inl hf, hl⟩
    · exact Or.inl (Or.inr rfl)
  · rintro y (hy | rfl)
    · rcases h.complete y hy with hy | ⟨hp, z, hz, hbz⟩
      · exact Or.inl ((hmem y).2 (Or.inl hy))
      · exact Or.inr ⟨hp, z, (hmem z).2 (Or.inl hz), hbz⟩
    · exact Or.inl ((hmem y).2 (Or.inr rfl))
  · intro y hy z hz hcy hcz
    rcases (hmem y).1 hy with hy | rfl <;> rcases (hmem z).1 hz with hz | rfl
    · exact h.single y hy z hz hcy hcz
    · rcases hx with hx | hx
      · simp [hx] at hcz
      · simp [hx y hy] at hcy
    · rcases hx with hx | hx
      · simp [hx] at hcy
      · simp [hx z hz] at hcz
    · rfl

theorem Gathers.absorb (h : b.Gathers X folded) (hx : b.isBooleanPart x)
    (hb : ∃ z ∈ folded, b.isBoolean z) : b.Gathers (fun y => X y ∨ y = x) folded := by
  refine ⟨?_, ?_, h.single⟩
  · intro y hy
    rcases h.sound y hy with hy | ⟨hy, t, f, ht, hf, hl⟩
    · exact Or.inl (Or.inl hy)
    · exact Or.inr ⟨hy, t, f, Or.inl ht, Or.inl hf, hl⟩
  · rintro y (hy | rfl)
    · exact h.complete y hy
    · exact Or.inr ⟨hx, hb⟩

/-- A boolean in place of literals, all of which it stands for. -/
theorem Gathers.replace (h : b.Gathers X folded) (hx : b.isBoolean x)
    (hmem : ∀ y, y ∈ folded' ↔ y = x ∨ y ∈ folded ∧ (b.booleanLiteral? y).isNone) :
    b.Gathers (fun y => X y ∨ y = x) folded' := by
  have hxc : b.isConversion x = false := by
    have hx : b.kind x = .boolean := by simpa [isBoolean] using hx
    simp [isConversion, hx]
  have hx' : x ∈ folded' := (hmem x).2 (Or.inl rfl)
  refine ⟨?_, ?_, ?_⟩
  · intro y hy
    rcases (hmem y).1 hy with rfl | ⟨hy, -⟩
    · exact Or.inl (Or.inr rfl)
    · rcases h.sound y hy with hy | ⟨hy, t, f, ht, hf, hl⟩
      · exact Or.inl (Or.inl hy)
      · exact Or.inr ⟨hy, t, f, Or.inl ht, Or.inl hf, hl⟩
  · rintro y (hy | rfl)
    · rcases h.complete y hy with hy | ⟨hp, -⟩
      · cases hl : b.booleanLiteral? y with
        | none => exact Or.inl ((hmem y).2 (Or.inr ⟨hy, by simp [hl]⟩))
        | some v => exact Or.inr ⟨by simp [isBooleanPart, hl], x, hx', hx⟩
      · exact Or.inr ⟨hp, x, hx', hx⟩
    · exact Or.inl hx'
  · intro y hy z hz hcy hcz
    rcases (hmem y).1 hy with rfl | ⟨hy, -⟩ <;> rcases (hmem z).1 hz with rfl | ⟨hz, -⟩
    · rfl
    · simp [hxc] at hcy
    · simp [hxc] at hcz
    · exact h.single y hy z hz hcy hcz

/-- Both booleans in place of a literal, when its opposite comes. -/
theorem Gathers.oppose (hb : b.BothBoolean) (h : b.Gathers X folded) {i : Nat} {y z : NodeId}
    {value : Bool} (hz : b.bothBooleans = some z) (hi : folded[i]? = some y)
    (hy : b.booleanLiteral? y = some !value) (hx : b.booleanLiteral? x = some value) :
    b.Gathers (fun y => X y ∨ y = x) (folded.set i z) := by
  have hzk := hb z hz
  have hXy : X y := by
    rcases h.sound y (List.mem_of_getElem? hi) with hXy | ⟨hyz, -⟩
    · exact hXy
    · rw [booleanLiteral?, hb y hyz] at hy
      cases hy
  have hzmem : z ∈ folded.set i z := List.mem_set (List.getElem?_eq_some_iff.1 hi).1 z
  -- the literal that gives way is the only member that is lost
  have hkeep : ∀ u ∈ folded, u ∈ folded.set i z ∨ u = y := by
    intro u hu
    obtain ⟨j, hj⟩ := List.mem_iff_getElem?.1 hu
    by_cases hij : i = j
    · subst hij
      exact Or.inr (Option.some.inj (hj.symm.trans hi))
    · exact Or.inl (List.mem_iff_getElem?.2 ⟨j, by rw [List.getElem?_set_ne hij, hj]⟩)
  have hzb : ∃ u ∈ folded.set i z, b.isBoolean u := ⟨z, hzmem, by simp [isBoolean, hzk]⟩
  refine ⟨?_, ?_, ?_⟩
  · intro u hu
    rcases List.mem_or_eq_of_mem_set hu with hu | rfl
    · rcases h.sound u hu with hu | ⟨hu, t, f, ht, hf, hl⟩
      · exact Or.inl (Or.inl hu)
      · exact Or.inr ⟨hu, t, f, Or.inl ht, Or.inl hf, hl⟩
    · refine Or.inr ⟨hz, ?_⟩
      cases value with
      | true => exact ⟨x, y, Or.inr rfl, Or.inl hXy, hx, hy⟩
      | false => exact ⟨y, x, Or.inl hXy, Or.inr rfl, hy, hx⟩
  · rintro u (hu | rfl)
    · rcases h.complete u hu with hmem | ⟨hp, -⟩
      · rcases hkeep u hmem with hmem | rfl
        · exact Or.inl hmem
        · exact Or.inr ⟨by simp [isBooleanPart, hy], hzb⟩
      · exact Or.inr ⟨hp, hzb⟩
    · exact Or.inr ⟨by simp [isBooleanPart, hx], hzb⟩
  · have hzc : b.isConversion z = false := by simp [isConversion, hzk]
    intro u hu v hv hcu hcv
    rcases List.mem_or_eq_of_mem_set hu with hu | rfl
    · rcases List.mem_or_eq_of_mem_set hv with hv | rfl
      · exact h.single u hu v hv hcu hcv
      · simp [hzc] at hcv
    · simp [hzc] at hcu

/-! ### Folding -/

theorem mem_foldArray {y : NodeId} : y ∈ b.foldArray folded x ↔ y ∈ folded ∨ y = x := by
  unfold foldArray
  split
  · simp
  · rename_i i hi
    conv_rhs => rw [← List.take_append_drop i folded]
    simp only [List.mem_append, List.mem_cons]
    tauto

theorem mem_foldBoolean {y : NodeId} : y ∈ b.foldBoolean folded x ↔
    y = x ∨ y ∈ folded ∧ (b.booleanLiteral? y).isNone := by
  unfold foldBoolean
  split
  · rename_i hnone
    rw [List.findIdx?_eq_none_iff] at hnone
    have hall : ∀ y ∈ folded, (b.booleanLiteral? y).isNone := by
      intro y hy
      simpa using hnone y hy
    simp only [List.mem_append, List.mem_singleton]
    exact ⟨fun h => h.elim (fun h => Or.inr ⟨h, hall y h⟩) Or.inl,
      fun h => h.elim Or.inr fun h => Or.inl h.1⟩
  · rename_i i hi
    obtain ⟨hlt, hlit, hbefore⟩ := List.findIdx?_eq_some_iff_getElem.1 hi
    have htake : ∀ y ∈ folded.take i, (b.booleanLiteral? y).isNone := by
      intro y hy
      obtain ⟨j, hj, rfl⟩ := List.mem_iff_getElem.1 hy
      rw [List.length_take] at hj
      rw [List.getElem_take]
      simpa using hbefore j (by omega)
    have hsplit : folded = folded.take i ++ folded[i] :: folded.drop (i + 1) := by
      rw [← List.drop_eq_getElem_cons hlt, List.take_append_drop]
    conv_rhs => rw [hsplit]
    simp only [List.mem_append, List.mem_cons, List.mem_filter]
    constructor
    · rintro (h | rfl | ⟨h, hn⟩)
      · exact Or.inr ⟨Or.inl h, htake y h⟩
      · exact Or.inl rfl
      · exact Or.inr ⟨Or.inr (Or.inr h), hn⟩
    · rintro (rfl | ⟨h | rfl | h, hn⟩)
      · exact Or.inr (Or.inl rfl)
      · exact Or.inl h
      · rw [Option.isNone_iff_eq_none.1 hn] at hlit
        cases hlit
      · exact Or.inr (Or.inr ⟨h, hn⟩)

/-- What folding does to a builder: nothing, or it makes the node of both booleans. -/
def Folds (b b' : Builder D) : Prop := b' = b ∨ b' = b.both.2

theorem Folds.trans {b'' : Builder D} (h : b.Folds b') (h' : b'.Folds b'') : b.Folds b'' := by
  rcases h with rfl | rfl
  · exact h'
  · rcases h' with rfl | rfl
    · exact Or.inr rfl
    · exact Or.inr both_both

theorem Folds.grows (h : b.Folds b') : b.Grows b' := by
  rcases h with rfl | rfl
  · exact .refl _
  · exact grows_both

theorem Folds.bothBoolean (h : b.Folds b') (hb : b.BothBoolean) : b'.BothBoolean := by
  rcases h with rfl | rfl
  · exact hb
  · exact hb.both

theorem foldBooleanLiteral_folds {value : Bool} :
    b.Folds (b.foldBooleanLiteral folded x value).2 := by
  unfold foldBooleanLiteral
  split
  · exact Or.inl rfl
  · exact Or.inr rfl

/-- The ways in which a leaf is folded into others. -/
inductive LeafFold (union : NodeId) (b : Builder D) (folded : List NodeId) (x : NodeId) :
    Result D (List NodeId) → Prop
  | present : x ∈ folded → LeafFold union b folded x (.ok folded, b)
  | absorbed : x ∉ folded → b.isBooleanPart x → folded.any b.isBoolean →
      LeafFold union b folded x (.ok folded, b)
  | boolean : x ∉ folded → b.kind x = .boolean → folded.any b.isBoolean = false →
      LeafFold union b folded x (.ok (b.foldBoolean folded x), b)
  | literal {value : Bool} : x ∉ folded → b.kind x = .literal (.boolean value) →
      folded.any b.isBoolean = false →
      LeafFold union b folded x
        (.ok (b.foldBooleanLiteral folded x value).1, (b.foldBooleanLiteral folded x value).2)
  | array {element : Option NodeId} : x ∉ folded → b.kind x = .array element →
      LeafFold union b folded x (.ok (b.foldArray folded x), b)
  | refused : x ∉ folded → b.isConversion x → folded.any b.isConversion →
      LeafFold union b folded x (.error (.inUnion (b.name union)), b)
  | other : x ∉ folded → b.isBooleanPart x = false → (∀ element, b.kind x ≠ .array element) →
      (b.isConversion x = false ∨ folded.any b.isConversion = false) →
      LeafFold union b folded x (.ok (folded ++ [x]), b)

theorem leafFold {r : Result D (List NodeId)} (h : foldLeaf union b folded x = r) :
    LeafFold union b folded x r := by
  subst h
  unfold foldLeaf
  by_cases hmem : folded.contains x
  · rw [if_pos hmem]
    exact .present (by simpa using hmem)
  rw [if_neg hmem]
  have hx : x ∉ folded := by simpa using hmem
  split
  · rename_i hk
    split_ifs with hany
    · exact .absorbed hx (by simp [isBooleanPart, isBoolean, hk]) hany
    · exact .boolean hx hk (by simpa using hany)
  · rename_i value hk
    split_ifs with hany
    · exact .absorbed hx (by simp [isBooleanPart, booleanLiteral?, hk]) hany
    · exact .literal hx hk (by simpa using hany)
  · rename_i element hk
    exact .array hx hk
  · rename_i n hk
    split_ifs with hany
    · exact .refused hx (by simp [isConversion, hk]) hany
    · exact .other hx (by simp [isBooleanPart, isBoolean, booleanLiteral?, hk]) (by simp [hk])
        (Or.inr (by simpa using hany))
  · rename_i hb hl ha hc
    refine .other hx ?_ ha (Or.inl ?_)
    · cases hk : b.kind x <;> simp_all [isBooleanPart, isBoolean, booleanLiteral?]
    · cases hk : b.kind x <;> simp_all [isConversion]

theorem folds_of_foldLeaf {r : Except CompileError (List NodeId)}
    (h : foldLeaf union b folded x = (r, b')) : b.Folds b' := by
  cases leafFold h with
  | literal => exact foldBooleanLiteral_folds
  | _ => exact Or.inl rfl

theorem folds_of_foldLeaves {leaves : List NodeId} {r : Except CompileError (List NodeId)}
    (h : foldLeaves union b folded leaves = (r, b')) : b.Folds b' := by
  induction leaves generalizing b folded with
  | nil =>
    cases h
    exact Or.inl rfl
  | cons x xs ih =>
    simp only [foldLeaves] at h
    split at h
    · rename_i he
      cases h
      exact folds_of_foldLeaf he
    · rename_i he
      exact (folds_of_foldLeaf he).trans (ih h)

theorem folds_of_foldMember {r : Except CompileError (List NodeId)}
    (h : foldMember union b folded x = (r, b')) : b.Folds b' := by
  unfold foldMember at h
  split at h
  · split_ifs at h
    · cases h
      exact Or.inl rfl
    · exact folds_of_foldLeaves h
  · exact folds_of_foldLeaf h

theorem foldBooleanLiteral_gathers (hb : b.BothBoolean) (h : b.Gathers X folded)
    (hX : ∀ y, X y → y < b.nodes.size) {value : Bool} (hx : b.booleanLiteral? x = some value) :
    (b.foldBooleanLiteral folded x value).2.Gathers (fun y => X y ∨ y = x)
      (b.foldBooleanLiteral folded x value).1 := by
  unfold foldBooleanLiteral
  split
  · refine h.add (by simp) (Or.inl ?_)
    unfold booleanLiteral? at hx
    split at hx <;> simp_all [isConversion]
  · rename_i i hi
    obtain ⟨hlt, hlit, -⟩ := List.findIdx?_eq_some_iff_getElem.1 hi
    have hlit : b.booleanLiteral? folded[i] = some !value := by simpa using hlit
    have hsame : ∀ {y v}, b.booleanLiteral? y = some v → b.both.2.booleanLiteral? y = some v := by
      intro y v hy
      have hk : y < b.nodes.size := by
        apply lt_size_of_kind
        intro hk
        simp [booleanLiteral?, hk] at hy
      rw [booleanLiteral?, grows_both.kind hk]
      exact hy
    exact (h.grow hb grows_both hX).oppose hb.both bothBooleans_both
      (List.getElem?_eq_getElem hlt) (hsame hlit) (hsame hx)

theorem foldLeaf_gathers (hb : b.BothBoolean) (h : b.Gathers X folded)
    (hX : ∀ y, X y → y < b.nodes.size) (hf : foldLeaf union b folded x = (.ok folded', b')) :
    b'.Gathers (fun y => X y ∨ y = x) folded' := by
  cases leafFold hf with
  | present hmem =>
    refine ⟨?_, ?_, h.single⟩
    · intro y hy
      rcases h.sound y hy with hy | ⟨hy, t, f, ht, hf, hl⟩
      · exact Or.inl (Or.inl hy)
      · exact Or.inr ⟨hy, t, f, Or.inl ht, Or.inl hf, hl⟩
    · rintro y (hy | rfl)
      · exact h.complete y hy
      · exact Or.inl hmem
  | absorbed _ hpart hany => exact h.absorb hpart (by simpa using hany)
  | boolean _ hk _ => exact h.replace (by simp [isBoolean, hk]) fun y => mem_foldBoolean
  | literal _ hk _ => exact foldBooleanLiteral_gathers hb h hX (by simp [booleanLiteral?, hk])
  | array _ hk => exact h.add (fun y => mem_foldArray) (Or.inl (by simp [isConversion, hk]))
  | other _ _ _ hconv => exact h.add (by simp) (hconv.imp_right fun hany => by simpa using hany)

/-- Folding in a leaf fails only at a second conversion. -/
theorem foldLeaf_error {e : CompileError} (hf : foldLeaf union b folded x = (.error e, b')) :
    x ∉ folded ∧ b.isConversion x ∧ ∃ y ∈ folded, b.isConversion y := by
  cases leafFold hf with
  | refused hx hconv hany => exact ⟨hx, hconv, by simpa using hany⟩

theorem foldLeaves_gathers {leaves : List NodeId} (hb : b.BothBoolean) (h : b.Gathers X folded)
    (hX : ∀ y, X y → y < b.nodes.size) (hlt : ∀ y ∈ leaves, y < b.nodes.size)
    (hf : foldLeaves union b folded leaves = (.ok folded', b')) :
    b'.Gathers (fun y => X y ∨ y ∈ leaves) folded' := by
  induction leaves generalizing b folded X with
  | nil =>
    obtain ⟨rfl, rfl⟩ : folded = folded' ∧ b = b' := by simpa [foldLeaves] using hf
    exact h.congr (by simp)
  | cons x xs ih =>
    simp only [foldLeaves] at hf
    split at hf
    · simp at hf
    · rename_i folded₁ b₁ he
      have hfolds := folds_of_foldLeaf he
      have hsize := hfolds.grows.size
      refine (ih (hfolds.bothBoolean hb) (foldLeaf_gathers hb h hX he) ?_ ?_ hf).congr ?_
      · rintro y (hy | rfl)
        · exact Nat.lt_of_lt_of_le (hX y hy) hsize
        · exact Nat.lt_of_lt_of_le (hlt y (by simp)) hsize
      · exact fun y hy => Nat.lt_of_lt_of_le (hlt y (by simp [hy])) hsize
      · intro y
        simp [or_assoc]

end

end Builder

end Conform
