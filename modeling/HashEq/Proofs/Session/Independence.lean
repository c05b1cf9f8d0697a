import HashEq.Proofs.Session.Lists

/-!
# The order of requests does not matter

Two sessions of which the same was requested, in whatever order and however often,
end up with the same tables, and both give the same answers on the way. So requests
can be made in any order, and repeated, without anybody noticing.

* `Alike`: sessions that show the same;
* `alike_of_same_requests`: the same requests in another order;
* `alike_of_refused`: requests that are refused.
-/

namespace HashEq

namespace Session

open TypeTable

variable {table : TypeTable} {s s' : Session}

/-- Two sessions list the same functions and closures, count the same, and find the same functions
    by their symbols. -/
structure Alike (s s' : Session) : Prop where
  functionList : s.functionList = s'.functionList
  closureList : s.closureList = s'.closureList
  functionCount : s.functionCount = s'.functionCount
  closureCount : s.closureCount = s'.closureCount
  function? : ∀ symbol, s.function? symbol = s'.function? symbol

section Demanded

variable (h : Built table) (hdistinct : table.TextsDistinct) {made made' : List Request}
include h hdistinct

/-- Requests that demand the same lead new sessions to show the same. -/
theorem alike_of_demanded (hmade : ∀ cell, Demanded table made cell ↔ Demanded table made' cell) :
    Alike (after table made .empty) (after table made' .empty) := by
  have hs := settled_after h made (settled_empty table)
  have hs' := settled_after h made' (settled_empty table)
  have hknows : ∀ cell, (after table made .empty).Knows cell ↔ (after table made' .empty).Knows cell :=
    fun cell => by rw [knows_after_empty h, knows_after_empty h, hmade]
  have hfunctions := functionList_congr h.lawful hdistinct hs hs' hknows
  have hclosures := closureList_congr h.lawful hdistinct hs hs' hknows
  refine ⟨hfunctions, hclosures, ?_, ?_, fun symbol => Option.ext fun f => ?_⟩
  · rw [← hs.length_functionList h.lawful hdistinct, ← hs'.length_functionList h.lawful hdistinct,
      hfunctions]
  · rw [← length_closureList (not_pending_after h made),
      ← length_closureList (not_pending_after h made'), hclosures]
  · rw [hs.function?_eq_some_iff h.lawful hdistinct, hs'.function?_eq_some_iff h.lawful hdistinct,
      ← hs.mem_functionList h.lawful hdistinct, ← hs'.mem_functionList h.lawful hdistinct, hfunctions]

/-- A request that is refused leaves everything as it was. -/
theorem alike_of_refused {request : Request} {e : RequestError}
    (he : (request.run table (after table made .empty)).1 = .error e) (hfault : ∀ f, e ≠ .fault f) :
    Alike (after table (made ++ [request]) .empty) (after table made .empty) := by
  obtain ⟨answer, hgives, hrefused⟩ := request.definite h
  rw [hgives.answers (settled_after h made (settled_empty table))] at he
  have hcells : request.cells table = [] :=
    (hrefused e he).resolve_left fun ⟨f, hf⟩ => hfault f hf
  refine alike_of_demanded h hdistinct fun cell => ?_
  rw [Demanded, List.flatMap_append, List.flatMap_singleton, hcells, List.append_nil, Demanded]

end Demanded

/-- What a session ends up with depends only on which requests were made, not on their order or on
    repetitions. The answers do not depend on what was requested before at all. -/
theorem alike_of_same_requests (h : Built table) (hdistinct : table.TextsDistinct)
    (first second : List Request) (hsame : ∀ request, request ∈ first ↔ request ∈ second) :
    Alike (after table first .empty) (after table second .empty) ∧
    (∀ (request : Request) (before before' : List Request),
      (request.run table (after table before .empty)).1 =
        (request.run table (after table before' .empty)).1) ∧
    ∀ request ∈ first, Alike (after table (first ++ [request]) .empty) (after table first .empty) := by
  refine ⟨alike_of_demanded h hdistinct (demanded_congr hsame), fun request before before' => ?_,
    fun request hrequest => alike_of_demanded h hdistinct (demanded_congr fun other => ?_)⟩
  · exact answer_eq h request (settled_after h before (settled_empty table))
      (settled_after h before' (settled_empty table))
  · rw [List.mem_append, List.mem_singleton]
    exact ⟨fun hmem => hmem.elim id fun heq => heq ▸ hrequest, .inl⟩

/-- Two ways to ask for code for a struct of two pairs. -/
theorem alike_of_same_requests_pairs :
    let first : List Request := [.hashClosure ⟨33⟩, .generate .equality ⟨33⟩]
    let second : List Request :=
      [.generate .equality ⟨33⟩, .hashClosure ⟨33⟩, .generate .equality ⟨33⟩]
    (∀ request, request ∈ first ↔ request ∈ second) ∧
    Alike (after pairTable first .empty) (after pairTable second .empty) ∧
    ∃ f ∈ (after pairTable first .empty).functionList, f.ty = ⟨33⟩ ∧ f.purpose = .equality := by
  intro first second
  have hsame : ∀ request, request ∈ first ↔ request ∈ second := by
    intro request
    simp only [first, second, List.mem_cons, List.not_mem_nil, or_false]
    exact ⟨fun hmem => .inr hmem, fun hmem => hmem.elim .inr id⟩
  refine ⟨hsame, ?_, ?_⟩
  · exact (alike_of_same_requests built_pairTable textsDistinct_pairTable first second hsame).1
  · have hty : pairTable.Has ⟨33⟩ ∧ pairTable.base ⟨33⟩ = .special := by decide +kernel
    have hknows := (knows_after_empty built_pairTable first (.function ⟨33⟩ .equality)).2
      (demanded_generate hty.1 hty.2 (List.mem_cons_of_mem _ (List.mem_singleton_self _)))
    have hsettled := settled_after built_pairTable first (settled_empty pairTable)
    obtain ⟨f, hf, hfty, hpurpose, _⟩ :=
      hsettled.functionList_of_knows built_pairTable.lawful textsDistinct_pairTable hknows
    exact ⟨f, hf, hfty, hpurpose⟩

end Session

end HashEq
