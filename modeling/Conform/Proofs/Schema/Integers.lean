import Conform.Proofs.Number.Integers
import Conform.Proofs.Schema.Identity

/-! Big integers as literals of types. What is read of a text is the integer that it denotes, in one
form only, so that values, literals and entries of a table are told apart as integers are. -/

namespace Conform

open Table

theorem Value.strictEq_bigint {i j : Int} : (Value.bigint i).strictEq (.bigint j) ↔ i = j := by
  simp [strictEq]

namespace BigInt

variable {s s' : String} {i j : Int}

theorem Denotes.unique (h : Denotes s i) (h' : Denotes s j) : i = j :=
  Option.some.inj ((parse?_eq_some.2 h).symm.trans (parse?_eq_some.2 h'))

theorem denote_same (h : Denotes s i) (h' : Denotes s' j) :
    (∃ n, Denotes s n ∧ Denotes s' n) ↔ i = j := by
  constructor
  · rintro ⟨n, hn, hn'⟩
    rw [h.unique hn, h'.unique hn']
  · rintro rfl
    exact ⟨i, h, h'⟩

theorem exists_denotes {t : Table} {d : TypeId} (h : t.Spells (.bigint s) d) :
    ∃ i, Denotes s i ∧ (TypeExpr.bigint s).term t.lookup = .literal (.bigint i) := by
  rcases h with ⟨n, hn, -⟩ | ⟨-, -, i, hi, -⟩
  · cases hn
  · exact ⟨i, parse?_eq_some.1 hi, by rw [TypeExpr.term, hi]⟩

theorem entries_eq_iff {t : Table} {d d' : TypeId} (ht : t.Tidy) (h : t.Spells (.bigint s) d)
    (h' : t.Spells (.bigint s') d') : d = d' ↔ ∃ i, Denotes s i ∧ Denotes s' i := by
  obtain ⟨i, hi, hterm⟩ := exists_denotes h
  obtain ⟨j, hj, hterm'⟩ := exists_denotes h'
  rw [h.eq_iff ht rfl rfl h', hterm, hterm', denote_same hi hj, TypeTerm.literal.injEq,
    Literal.bigint.injEq]

/-- Reading a big integer decodes it to one form. A text is read exactly if it is an optional minus,
digits and an optional suffix between blanks. What is kept of it are the digits without the zeros in
front, and a sign unless that leaves zero. Two texts have the same sign and digits, equal as values
and literals, and share an entry wherever both are interned, exactly if they denote one integer; and
the text of what was read, its sign and its digits, is read as the same. -/
theorem parse_canonical :
    (∀ s i, parse? s = some i ↔ Denotes s i) ∧
    (∀ s negative ds, Written (Text.trim s.toList) negative ds → ∃ i, parse? s = some i ∧
      signedDigits i = ⟨negative && significant ds != ['0'], String.ofList (significant ds)⟩) ∧
    (∀ s i, parse? s = some i →
      ((signedDigits i).digits.toList.head? = some '0' → signedDigits i = ⟨false, "0"⟩) ∧
      (signedDigits i).text = text i ∧ parse? (text i) = some i) ∧
    (∀ s s' i j, parse? s = some i → parse? s' = some j →
      (signedDigits i = signedDigits j ↔ ∃ n, Denotes s n ∧ Denotes s' n) ∧
      ((Value.bigint i).strictEq (.bigint j) ↔ ∃ n, Denotes s n ∧ Denotes s' n)) ∧
    ∀ types t, (Fields.names types).Nodup → ofDeclarations types = .ok t → ∀ es,
      ∀ p ∈ declarationCalls types ++ t.eachCalls es,
      ∀ q ∈ declarationCalls types ++ t.eachCalls es, ∀ s s', p.1 = .bigint s → q.1 = .bigint s' →
        (p.2 = q.2 ↔ ∃ n, Denotes s n ∧ Denotes s' n) := by
  refine ⟨fun s i => parse?_eq_some, fun s negative ds hw => ?_, fun s i _ =>
    ⟨signedDigits_of_head?, text_signedDigits i, parse?_eq_some.2 (denotes_text i)⟩,
    fun s s' i j hi hj => ?_, fun types t hn h es p hp q hq s s' hs hs' => ?_⟩
  · exact ⟨integer negative ds, parse?_eq_some.2 ⟨negative, ds, hw, rfl⟩,
      signedDigits_integer hw.2.1⟩
  · rw [denote_same (parse?_eq_some.1 hi) (parse?_eq_some.1 hj)]
    exact ⟨signedDigits_inj, Value.strictEq_bigint⟩
  · obtain ⟨u, hdecl, -⟩ := declarationCalls_made hn h
    have hmade := hdecl.append (eachCalls_made hdecl.sound es)
    exact entries_eq_iff hmade.sound.tidy (hs ▸ hmade.spells p hp) (hs' ▸ hmade.spells q hq)

def sevens : Declarations := [("Sevens", .array (.bigint "007n")), ("Name", .name "string")]

/-- A negative seven with blanks around it is that without, and the seven of an expression has the
entry of the declared one. -/
theorem parse_canonical_sevens :
    Written (Text.trim " -007n\t".toList) true "007".toList ∧ parse? " -007n\t" = some (-7) ∧
    signedDigits (-7) = ⟨true, "7"⟩ ∧ parse? (text (-7)) = some (-7) ∧
    (∃ n, Denotes " -007n\t" n ∧ Denotes "-7" n) ∧
    (Fields.names sevens).Nodup ∧ ∃ t, ofDeclarations sevens = .ok t ∧
      (TypeExpr.bigint "007n", 2) ∈ declarationCalls sevens ∧
      (TypeExpr.bigint "  7", 2) ∈ t.eachCalls [.bigint "  7"] ∧
      ∃ n, Denotes "007n" n ∧ Denotes "  7" n := by
  obtain ⟨-, hkept, hback, hsame, hentries⟩ := parse_canonical
  have hw : Written (Text.trim " -007n\t".toList) true "007".toList :=
    ⟨by decide, List.all_eq_true.1 (by decide), ['n'], by simp, by decide⟩
  have hs : parse? " -007n\t" = some (-7) := by decide
  have hs' : parse? "-7" = some (-7) := by decide
  obtain ⟨i, hi, hdigits⟩ := hkept _ _ _ hw
  obtain rfl := Option.some.inj (hs.symm.trans hi)
  have hnames : (Fields.names sevens).Nodup := by decide
  have hdeclared : (TypeExpr.bigint "007n", 2) ∈ declarationCalls sevens := by
    have hcalls : declarationCalls sevens = [(.bigint "007n", 2)] := by with_unfolding_all rfl
    simp [hcalls]
  obtain ⟨t, ht, hinline⟩ : ∃ t, ofDeclarations sevens = .ok t ∧
      t.eachCalls [.bigint "  7"] = [(.bigint "  7", 2)] :=
    ⟨_, by with_unfolding_all rfl, by with_unfolding_all rfl⟩
  have hmem : (TypeExpr.bigint "  7", 2) ∈ t.eachCalls [.bigint "  7"] := by simp [hinline]
  refine ⟨hw, hs, hdigits, (hback _ _ hs).2.2, (hsame _ _ _ _ hs hs').1.1 rfl, hnames, t, ht,
    hdeclared, hmem, ?_⟩
  exact (hentries sevens t hnames ht [.bigint "  7"] _ (List.mem_append_left _ hdeclared) _
    (List.mem_append_right _ hmem) "007n" "  7" rfl rfl).1 rfl

end BigInt

end Conform
