import Conform.Proofs.Number.Rounding
import Conform.Proofs.Schema.Same

/-! The view of values as data. Reading it back and viewing it again gives the same data, whatever
the value; a value that is made of data alone is read back as it was, but for the sign of zeros. -/

namespace Conform

-- Powers are those of the core library, whatever else is imported.
attribute [local instance (high)] instPowNat

namespace Double

theorem units_pos {rank : Nat} (h : rank ≠ 0) : 0 < units rank :=
  Nat.zero_lt_of_lt (units_strictMono (Nat.pos_of_ne_zero h))

theorem toInt?_finite (negative : Bool) (rank : Fin rankLimit) :
    toInt? (.finite negative rank) = if units rank % unitsInOne = 0 then
      some (if negative then -((units rank / unitsInOne : Nat) : Int)
        else (units rank / unitsInOne : Nat)) else none := by
  have hcast : ((unitsInOne : Nat) : Int) = 2 ^ (1074 : Nat) := by decide +kernel
  rw [Int.natCast_ediv, hcast, unitsInOne_eq]
  rfl

theorem toInt?_normal (d : Double) : d.normal.toInt? = d.toInt? := by
  rw [normal]
  split_ifs with hz
  · cases d with
    | finite negative rank =>
      have hr : rank.val = 0 := by simpa [isZero] using hz
      have hzero : units 0 = 0 := rfl
      rw [zero, toInt?_finite, toInt?_finite, hr, hzero]
      cases negative <;> simp
    | _ => cases hz
  · rfl

/-- What an integer is read as is the number that it was, with one zero in place of both. -/
theorem ofInt_of_toInt? {d : Double} {i : Int} (h : d.toInt? = some i) : ofInt i = d.normal := by
  cases d with
  | finite negative rank =>
    rw [toInt?_finite] at h
    split at h
    · rename_i hwhole
      have hunits : units rank / unitsInOne * unitsInOne = units rank :=
        Nat.div_mul_cancel (Nat.dvd_of_mod_eq_zero hwhole)
      generalize units rank / unitsInOne = n at h hunits
      have hi := Option.some.inj h
      have habs : i.natAbs = n := by
        rw [← hi]
        cases negative <;> simp
      rw [ofInt, habs, normal, isZero]
      split_ifs with hr
      · -- zero has no sign
        have hr : rank.val = 0 := by simpa using hr
        have hzero : n = 0 := by
          rw [hr] at hunits
          exact (Nat.mul_eq_zero.1 hunits).resolve_right unitsInOne_pos.ne'
        have hneg : decide (i < 0) = false := by
          rw [decide_eq_false_iff_not]
          omega
        rw [hneg, zero]
        exact nearest_of_units _ _ (by rw [hunits, hr])
      · have hpos : 0 < n := by
          have hrank : 0 < units rank := units_pos (by simpa using hr)
          exact Nat.pos_of_mul_pos_right (hunits ▸ hrank)
        have hneg : decide (i < 0) = negative := by
          rw [← hi]
          cases negative
          · simp
          · simpa using hpos
        rw [hneg]
        exact nearest_of_units _ _ hunits
    · cases h
  | _ => cases h

theorem toSafeInt?_ofInt {d : Double} {i : Int} (h : d.toSafeInt? = some i) :
    ofInt i = d.normal ∧ (ofInt i).toSafeInt? = some i := by
  obtain ⟨hint, -⟩ := Option.filter_eq_some_iff.1 h
  refine ⟨ofInt_of_toInt? hint, ?_⟩
  rw [ofInt_of_toInt? hint, toSafeInt?, toInt?_normal]
  exact h

/-- What is no safe integer is no zero. -/
theorem normal_of_toSafeInt? {d : Double} (h : d.toSafeInt? = none) : d.normal = d := by
  rw [normal]
  split_ifs with hz
  · have hzero : d.toInt? = zero.toInt? := by rw [← toInt?_normal, normal, if_pos hz]
    rw [toSafeInt?, hzero] at h
    exact absurd h (by decide +kernel)
  · rfl

def isFinite : Double → Bool
  | .finite _ _ => true
  | _ => false

end Double

namespace Value

mutual

/-- Whether a value is made of data alone: nothing is undefined, and there are no big integers and
no numbers but finite ones. -/
def isData : Value → Bool
  | .undefined | .bigint _ => false
  | .null | .bool _ | .string _ => true
  | .number d => d.isFinite
  | .array items => itemsData items
  | .object fields => fieldsData fields

def itemsData : List Value → Bool
  | [] => true
  | v :: vs => v.isData && itemsData vs

def fieldsData : List (String × Value) → Bool
  | [] => true
  | (_, v) :: fs => v.isData && fieldsData fs

end

mutual

/-- A value with one zero in place of both, wherever it has one. -/
def normal : Value → Value
  | .number d => .number d.normal
  | .array items => .array (itemsNormal items)
  | .object fields => .object (fieldsNormal fields)
  | v => v

def itemsNormal : List Value → List Value
  | [] => []
  | v :: vs => v.normal :: itemsNormal vs

def fieldsNormal : List (String × Value) → List (String × Value)
  | [] => []
  | (k, v) :: fs => (k, v.normal) :: fieldsNormal fs

end

theorem isUndefined_ofJson (j : Json) : (ofJson j).isUndefined = false := by cases j <;> rfl

theorem isUndefined_of_isData {v : Value} (h : v.isData) : v.isUndefined = false := by
  cases v <;> first | rfl | cases h

theorem numberJson_integer {d : Double} {i : Int} (h : d.toSafeInt? = some i) :
    numberJson d = .integer i := by
  simp only [numberJson, h]

theorem numberJson_real {d : Double} (h : d.toSafeInt? = none) (hf : d.isFinite) :
    numberJson d = .real d := by
  cases d with
  | finite negative rank => simp only [numberJson, h]
  | _ => cases hf

theorem numberJson_null {d : Double} (h : d.toSafeInt? = none) (hf : d.isFinite = false) :
    numberJson d = .null := by
  cases d with
  | finite negative rank => cases hf
  | _ => rfl

/-- A number is viewed as an integer, as a real number or as null, and each is viewed as itself when
it is read back. -/
theorem toJson_ofJson_number (d : Double) : (ofJson (numberJson d)).toJson = numberJson d := by
  cases h : d.toSafeInt? with
  | some i =>
    rw [numberJson_integer h, ofJson, toJson]
    exact numberJson_integer (Double.toSafeInt?_ofInt h).2
  | none =>
    cases hf : d.isFinite with
    | true =>
      rw [numberJson_real h hf, ofJson, toJson]
      exact numberJson_real h hf
    | false =>
      rw [numberJson_null h hf]
      rfl

theorem ofJson_number {d : Double} (hf : d.isFinite) :
    ofJson (numberJson d) = .number d.normal := by
  cases h : d.toSafeInt? with
  | some i => rw [numberJson_integer h, ofJson, (Double.toSafeInt?_ofInt h).1]
  | none => rw [numberJson_real h hf, ofJson, Double.normal_of_toSafeInt? h]

mutual

theorem toJson_ofJson : ∀ v : Value, (ofJson v.toJson).toJson = v.toJson
  | .undefined | .null | .bool _ | .bigint _ | .string _ => rfl
  | .number d => toJson_ofJson_number d
  | .array items => by rw [toJson, ofJson, toJson, itemsJson_ofItems items]
  | .object fields => by rw [toJson, ofJson, toJson, fieldsJson_ofFields fields]

theorem itemsJson_ofItems : ∀ vs : List Value, itemsJson (ofItems (itemsJson vs)) = itemsJson vs
  | [] => rfl
  | v :: vs => by rw [itemsJson, ofItems, itemsJson, toJson_ofJson v, itemsJson_ofItems vs]

theorem fieldsJson_ofFields :
    ∀ fs : List (String × Value), fieldsJson (ofFields (fieldsJson fs)) = fieldsJson fs
  | [] => rfl
  | (k, v) :: fs => by
    rw [fieldsJson]
    split_ifs with hv
    · exact fieldsJson_ofFields fs
    · rw [ofFields, fieldsJson, isUndefined_ofJson, toJson_ofJson v, fieldsJson_ofFields fs]
      rfl

end

mutual

theorem ofJson_toJson : ∀ v : Value, v.isData → ofJson v.toJson = v.normal
  | .undefined, h | .bigint _, h => by cases h
  | .null, _ | .bool _, _ | .string _, _ => rfl
  | .number _, h => ofJson_number h
  | .array items, h => by rw [toJson, ofJson, normal, ofItems_itemsJson items h]
  | .object fields, h => by rw [toJson, ofJson, normal, ofFields_fieldsJson fields h]

theorem ofItems_itemsJson :
    ∀ vs : List Value, itemsData vs → ofItems (itemsJson vs) = itemsNormal vs
  | [], _ => rfl
  | v :: vs, h => by
    obtain ⟨hv, hvs⟩ := Bool.and_eq_true_iff.1 h
    rw [itemsJson, ofItems, itemsNormal, ofJson_toJson v hv, ofItems_itemsJson vs hvs]

theorem ofFields_fieldsJson :
    ∀ fs : List (String × Value), fieldsData fs → ofFields (fieldsJson fs) = fieldsNormal fs
  | [], _ => rfl
  | (k, v) :: fs, h => by
    obtain ⟨hv, hfs⟩ := Bool.and_eq_true_iff.1 h
    rw [fieldsJson, isUndefined_of_isData hv, if_neg (by simp), ofFields, fieldsNormal,
      ofJson_toJson v hv, ofFields_fieldsJson fs hfs]

end

/-- The view as data is stable: it is the view of what is read back from it. What is made of data
alone is read back as it was, with its entries in the same order and one zero in place of both. -/
theorem view_stable (v : Value) :
    (ofJson v.toJson).toJson = v.toJson ∧ (v.isData → ofJson v.toJson = v.normal) :=
  ⟨toJson_ofJson v, ofJson_toJson v⟩

/-- A value with all that the view changes: something undefined in an object and in an array, a
number that is none, a big integer, and a negative zero. -/
def order : Value := .object [("note", .undefined), ("sizes", .array [.undefined, .number .nan]),
  ("count", .bigint 12), ("discount", .number (.ofRank true 0))]

def three : Double := .ofRank false (1025 * 2 ^ 52 - 2 ^ 51)

/-- A value of data alone. -/
def invoice : Value := .object [("total", .number three), ("lines", .array [.object [], .null]),
  ("discount", .number (.ofRank true 0)), ("rate", .number (.ofRank false 1))]

theorem view_stable_invoice :
    (ofJson order.toJson).toJson = order.toJson ∧ invoice.isData = true ∧
    ofJson invoice.toJson = .object [("total", .number three),
      ("lines", .array [.object [], .null]), ("discount", .number .zero),
      ("rate", .number (.ofRank false 1))] := by
  have hdata : invoice.isData = true := by decide
  exact ⟨(view_stable order).1, hdata, (view_stable invoice).2 hdata⟩

end Value

end Conform
