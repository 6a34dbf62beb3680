import Conform.Proofs.Builder.Endless
import Conform.Proofs.Builder.Walking

/-! When requests compile: no two hooks are of one type, the types can be walked in the order of
the requests, and each type on the way is in order and has an end. -/

namespace Conform

variable {D : Type} [DecidableEq D] {o : Oracle D} {hooks : List (Hook D)}

theorem hook?_isSome {d : D} : (hook? hooks d).isSome ↔ d ∈ hooks.map (·.result) := by
  simp [hook?]

namespace Builder

theorem clash?_eq_none {before : List (Hook D)} :
    clash? before hooks = none ↔ (hooks.map (·.result)).Nodup ∧
      ∀ k ∈ hooks, ∀ k' ∈ before, k'.result ≠ k.result := by
  induction hooks generalizing before with
  | nil => simp [clash?]
  | cons k ks ih =>
    unfold clash?
    cases hf : before.find? (·.result == k.result) with
    | some k' =>
      have hk' := List.find?_some hf
      simp only [reduceCtorEq, false_iff, not_and, not_forall]
      intro _
      exact ⟨k, by simp, k', List.mem_of_find?_eq_some hf, by simpa using hk'⟩
    | none =>
      have hnone : ∀ k' ∈ before, k'.result ≠ k.result := by simpa using hf
      dsimp only
      rw [ih, List.map_cons, List.nodup_cons, List.forall_mem_cons]
      constructor
      · rintro ⟨hnodup, hall⟩
        refine ⟨⟨fun hmem => ?_, hnodup⟩, hnone, fun k₁ hk₁ k' hk' => hall k₁ hk₁ k' (by simp [hk'])⟩
        obtain ⟨k₁, hk₁, he⟩ := List.mem_map.1 hmem
        exact hall k₁ hk₁ k (by simp) he.symm
      · rintro ⟨⟨hfresh, hnodup⟩, -, hall⟩
        refine ⟨hnodup, fun k₁ hk₁ k' hk' he => ?_⟩
        rcases List.mem_append.1 hk' with hk' | hk'
        · exact hall k₁ hk₁ k' hk' he
        · rw [List.mem_singleton.1 hk'] at he
          exact hfresh (he ▸ List.mem_map_of_mem hk₁)

theorem checkHooks_eq_ok : checkHooks o hooks = .ok () ↔ (hooks.map (·.result)).Nodup := by
  unfold checkHooks
  cases hc : clash? [] hooks with
  | none => simpa using (clash?_eq_none.1 hc).1
  | some ks =>
    simp only [reduceCtorEq, false_iff]
    intro hnodup
    rw [clash?_eq_none.2 ⟨hnodup, by simp⟩] at hc
    cases hc

end Builder

/-- Whether a type can be compiled apart from how requests lead to it. -/
structure Sane (o : Oracle D) (hooks : List (Hook D)) (d : D) : Prop where
  fine : Fine o hooks d
  acc : Acc (Inside o hooks) d

/-- Whether types can be walked in order, and all that they lead to can be compiled. -/
structure Compilable (o : Oracle D) (hooks : List (Hook D)) (ds : List D) : Prop where
  walks : ∃ seen, Walks o hooks [] [] ds seen
  sane : ∀ d ∈ ds, ∀ c, Reaches o hooks d c → Sane o hooks c

theorem exists_compile {requests : List (Request D)} (hl : o.Listed hooks)
    (hd : ∀ q ∈ requests, q.root ∈ o.descriptors) :
    (∃ p, compile o requests hooks = .ok p) ↔
      (hooks.map (·.result)).Nodup ∧ Compilable o hooks (requests.map (·.root)) := by
  constructor
  · rintro ⟨p, h⟩
    obtain ⟨⟨⟩, hhooks, h⟩ := bind_eq_ok.1 h
    obtain ⟨⟨roots, b⟩, hroots, h⟩ := bind_eq_ok.1 h
    have hwalks := Builder.resolveRoots_walks hl Builder.ready_empty hd hroots
    obtain ⟨ha, hall⟩ := resolveRoots_advances Builder.valid_empty hroots
    have hv := ha.valid
    have hp := Model.Programs.of_program hv.model_counted hv.numbered h
    refine ⟨Builder.checkHooks_eq_ok.1 hhooks, ⟨b.types, hwalks⟩, fun d hmem c hc => ?_⟩
    obtain ⟨id, hid⟩ := Builder.mem_types.1 (hwalks.seen_of_reaches hmem hc)
    obtain ⟨q, hq, rfl⟩ := List.mem_map.1 hmem
    obtain ⟨root, hroot, -, -, hknown⟩ := exists_of_mem_left hall hq
    exact ⟨hv.fine hid, hv.acc_of_programs hp hroot hknown hc⟩
  · rintro ⟨hhooks, ⟨seen, hw⟩, hsane⟩
    have hseen : ∀ c ∈ seen, Sane o hooks c := by
      intro c hc
      obtain ⟨d, hmem, hr⟩ := (hw.reached c hc).resolve_left (by simp)
      exact hsane d hmem c hr
    obtain ⟨roots, b, hroots⟩ :=
      Builder.exists_resolveRoots hl Builder.ready_empty hd hw fun c hc => (hseen c hc).fine
    obtain rfl := (Builder.resolveRoots_walks hl Builder.ready_empty hd hroots).unique hw
    obtain ⟨ha, hall⟩ := resolveRoots_advances Builder.valid_empty hroots
    obtain ⟨p, hp⟩ := ha.valid.exists_program hall
      (fun e he => (hseen e.1 (Builder.mem_types.2 ⟨e.2, he⟩)).acc) (hooks.map (routineOf o))
    exact ⟨p, bind_eq_ok.2 ⟨(), Builder.checkHooks_eq_ok.2 hhooks, bind_eq_ok.2 ⟨_, hroots, hp⟩⟩⟩

end Conform
