import HashEq.Proofs.Machine.Calls

/-!
# What a session answers

Whether a session has closures and functions for a type is decided by the algorithm
of the type alone, whatever has been requested and run before. Code is generated by
looking at the parts of a type; that never comes upon a part that it cannot treat.

* `Session.Classified`: the answers about one type;
* `Machine.answers_classified`: every session that can be reached gives them.
-/

namespace HashEq

/-- Whether a refusal tells of a part that the code for a type cannot treat. -/
def RequestError.IsInternal : RequestError → Prop
  | hashForMemory _ | noDirectEquality _ _ | uncomparable _ => True
  | _ => False

namespace Session

open TypeTable

/-- The closures and functions that a session answers for a type are those that the algorithm of
    the type calls for. -/
structure Classified (table : TypeTable) (s : Session) (ty : TypeId) (text : String) : Prop where
  hash : table.algorithm ty ≠ .noEquality → ∃ c, (hashClosure table ty s).1 = .ok c
  equality : table.algorithm ty ≠ .noEquality → ∃ c, (equalityClosure table ty s).1 = .ok (some c)
  noHash : table.algorithm ty = .noEquality → (hashClosure table ty s).1 = .error (.noHash text)
  noEquality : table.algorithm ty = .noEquality → (equalityClosure table ty s).1 = .ok none
  function : table.algorithm ty = .custom → ∀ purpose, ∃ f, (generate table purpose ty s).1 = .ok f
  notAggregate : (table.kind ty).isAggregate = false → ∀ purpose,
    (generate table purpose ty s).1 = .error (.notAggregate text purpose)
  notCustom : (table.kind ty).isAggregate = true → table.algorithm ty ≠ .custom → ∀ purpose,
    (generate table purpose ty s).1 = .error (.notCustom text purpose (table.algorithm ty))

variable {table : TypeTable} {s : Session} {ty : TypeId} {purpose : Purpose} {e : RequestError}

theorem classified (h : Built table) (hs : Settled table s) (hty : table.Has ty) :
    Classified table s ty (table.shape ty).text := by
  have hequality : table.algorithm ty ≠ .noEquality → table.base ty ≠ .noEquality :=
    fun hne hbase => hne (algorithm_eq_noEquality_iff.2 hbase)
  have hrefused : table.base ty ≠ .special → ∀ purpose,
      (generate table purpose ty s).1 = .error (table.refusal purpose ty) :=
    fun hbase purpose => (gives_generate_refused h.lawful hty hbase purpose).answers hs
  refine ⟨fun hne => ?_, fun hne => ?_, fun heq => ?_, fun heq => ?_, fun heq purpose => ?_,
    fun hkind purpose => ?_, fun hkind hne purpose => ?_⟩
  · obtain ⟨c, hgives⟩ := gives_hashClosure h hty (hequality hne)
    exact ⟨c, hgives.answers hs⟩
  · obtain ⟨c, hgives⟩ := gives_equalityClosure h hty (hequality hne)
    exact ⟨c, hgives.answers hs⟩
  · rw [hashClosure_noEquality h.lawful hty (algorithm_eq_noEquality_iff.1 heq)]
    rfl
  · rw [equalityClosure_noEquality hty (algorithm_eq_noEquality_iff.1 heq)]
    rfl
  · obtain ⟨f, _, hgives⟩ := gives_generate h.lawful hty (algorithm_eq_custom_iff.1 heq) purpose
    exact ⟨f, hgives.answers hs⟩
  · -- Only structs and arrays are special.
    have hbase : table.base ty ≠ .special := by
      intro hspecial
      rw [base_of_get hty.get_eq] at hspecial
      have hflag := (h.lawful.isAggregate_of_special hty.get_eq hspecial).1
      rw [h.lawful.flags_isAggregate hty.get_eq, ← kind_of_get hty.get_eq, hkind] at hflag
      cases hflag
    rw [hrefused hbase, refusal, if_neg (by rw [hkind]; decide)]
  · rw [hrefused fun hspecial => hne (algorithm_eq_custom_iff.2 hspecial), refusal, if_pos hkind]

section Refusals

variable (h : Built table) (hs : Settled table s)
include h hs

theorem not_internal_of_hashClosure (he : (hashClosure table ty s).1 = .error e) : ¬e.IsInternal := by
  by_cases hty : table.Has ty
  · have hclassified := classified h hs hty
    by_cases hnone : table.algorithm ty = .noEquality
    · cases he.symm.trans (hclassified.noHash hnone)
      exact id
    · obtain ⟨_, hok⟩ := hclassified.hash hnone
      cases he.symm.trans hok
  · obtain ⟨f, hget⟩ := get_of_not_has hty
    rw [hashClosure_fault hget] at he
    cases he
    exact id

theorem not_internal_of_equalityClosure (he : (equalityClosure table ty s).1 = .error e) :
    ¬e.IsInternal := by
  by_cases hty : table.Has ty
  · have hclassified := classified h hs hty
    by_cases hnone : table.algorithm ty = .noEquality
    · cases he.symm.trans (hclassified.noEquality hnone)
    · obtain ⟨_, hok⟩ := hclassified.equality hnone
      cases he.symm.trans hok
  · obtain ⟨f, hget⟩ := get_of_not_has hty
    rw [equalityClosure_fault hget] at he
    cases he
    exact id

theorem not_internal_of_generate (he : (generate table purpose ty s).1 = .error e) :
    ¬e.IsInternal := by
  by_cases hty : table.Has ty
  · by_cases hspecial : table.base ty = .special
    · obtain ⟨f, _, hgives⟩ := gives_generate h.lawful hty hspecial purpose
      cases he.symm.trans (hgives.answers hs)
    · have hrefused := (gives_generate_refused h.lawful hty hspecial purpose).answers hs
      rw [hrefused, refusal] at he
      split at he
      · cases he
        exact id
      · cases he
        exact id
  · obtain ⟨f, hget⟩ := get_of_not_has hty
    cases he.symm.trans ((gives_generate_fault hget).answers hs)
    exact id

end Refusals

end Session

namespace Machine

open Session TypeTable

variable {table : TypeTable} {machine : Machine}

/-- Refusals occur exactly where the algorithm of the type says so: there are closures for the types
    with equality and functions for those with code of their own, one by one as well as in a batch.
    No refusal ever tells of a part that the code for a type cannot treat. -/
theorem answers_classified (h : Built table) (hreachable : Reachable table machine) :
    (∀ ty, table.Has ty →
      ∃ text, table.text ty = .ok text ∧ Classified table machine.session ty text) ∧
    (∀ types : List TypeId, (∀ ty ∈ types, table.Has ty) →
      ∃ served : List TypeClosures,
        (generateAll table types machine.session).1 = .ok (served.map .ok) ∧
          served.map (·.ty) = types ∧ ∀ closures ∈ served, Serves table closures) ∧
    (∀ (ty : TypeId) (e : RequestError), (hashClosure table ty machine.session).1 = .error e →
      ¬e.IsInternal) ∧
    (∀ (ty : TypeId) (e : RequestError), (equalityClosure table ty machine.session).1 = .error e →
      ¬e.IsInternal) ∧
    (∀ (purpose : Purpose) (ty : TypeId) (e : RequestError),
      (generate table purpose ty machine.session).1 = .error e → ¬e.IsInternal) ∧
    ∀ (types : List TypeId) (e : RequestError),
      (generateAll table types machine.session).1 = .error e → ¬e.IsInternal := by
  have hs := hreachable.settled h
  refine ⟨fun ty hty => ⟨_, h.lawful.text_eq hty, classified h hs hty⟩, fun types htypes => ?_,
    fun _ _ => not_internal_of_hashClosure h hs, fun _ _ => not_internal_of_equalityClosure h hs,
    fun _ _ _ => not_internal_of_generate h hs, fun types e he => ?_⟩
  · obtain ⟨answer, hgives, hok, _⟩ := gives_generateAll h types
    obtain ⟨served, hanswer, hserved⟩ := hok htypes
    exact ⟨served, (hgives.answers hs).trans hanswer, hserved⟩
  · obtain ⟨answer, hgives, _, hfault⟩ := gives_generateAll h types
    obtain ⟨f, rfl⟩ := hfault e ((hgives.answers hs).symm.trans he)
    exact id

/-- A struct of two pairs, and strings, which have no functions of their own, once a hash closure has
    been requested for the struct. -/
theorem answers_classified_pairs :
    let machine := (Request.hashClosure ⟨33⟩).after pairMachine
    (∃ c, (hashClosure pairTable ⟨33⟩ machine.session).1 = .ok c) ∧
    (∃ f, (generate pairTable .equality ⟨33⟩ machine.session).1 = .ok f) ∧
    (generate pairTable .hash ⟨14⟩ machine.session).1 = .error (.notAggregate "string" .hash) := by
  intro machine
  obtain ⟨hanswers, _⟩ := answers_classified built_pairTable
    (.request (.hashClosure ⟨33⟩) reachable_pairMachine : Reachable pairTable machine)
  have halgorithm : pairTable.algorithm ⟨33⟩ = .custom := by decide +kernel
  obtain ⟨_, _, hpairs⟩ := hanswers ⟨33⟩ (by decide +kernel)
  obtain ⟨text, htext, hstring⟩ := hanswers ⟨14⟩ (by decide +kernel)
  have hname : (pairTable.text ⟨14⟩).toOption = some "string" := by decide +kernel
  rw [htext] at hname
  refine ⟨hpairs.hash (by rw [halgorithm]; decide), hpairs.function halgorithm .equality, ?_⟩
  rw [hstring.notAggregate (by decide +kernel), show text = "string" from Option.some.inj hname]

end Machine

end HashEq
