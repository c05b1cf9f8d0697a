import HashEq.Proofs.Session.Answers

/-!
# Sequences of requests

What a session knows after a sequence of requests is what these demand, directly or
through others. Neither the order of the requests nor repetitions matter, and a
request is answered alike wherever it stands.

* `Demanded`: what a sequence of requests demands;
* `knows_after`: after requests, a session knows what they demand besides what it knew;
* `answer_eq`: the answer to a request does not depend on the requests before it.
-/

namespace HashEq

namespace Session

open TypeTable

variable {table : TypeTable} {s s' : Session} {made first second : List Request}

/-- The session after requests that are made in turn, answered or not. -/
def after (table : TypeTable) (made : List Request) (s : Session) : Session :=
  made.foldl (fun s request => (request.run table s).2) s

/-- The cell is asked for by one of the requests, or needed for one that is. -/
def Demanded (table : TypeTable) (made : List Request) (cell : Cell) : Prop :=
  Needed table (made.flatMap (Request.cells table)) cell

theorem after_append (made rest : List Request) (s : Session) :
    after table (made ++ rest) s = after table rest (after table made s) :=
  List.foldl_append

theorem demanded_iff {cell : Cell} :
    Demanded table made cell ↔ ∃ request ∈ made, Needed table (request.cells table) cell := by
  constructor
  · rintro ⟨outer, houter, hneeds⟩
    obtain ⟨request, hrequest, houter⟩ := List.mem_flatMap.1 houter
    exact ⟨request, hrequest, outer, houter, hneeds⟩
  · rintro ⟨request, hrequest, outer, houter, hneeds⟩
    exact ⟨outer, List.mem_flatMap.2 ⟨request, hrequest, houter⟩, hneeds⟩

/-- A function is demanded by a request for it. -/
theorem demanded_generate {purpose : Purpose} {ty : TypeId} (hty : table.Has ty)
    (hspecial : table.base ty = .special) (hmade : .generate purpose ty ∈ made) :
    Demanded table made (.function ty purpose) := by
  refine demanded_iff.2 ⟨_, hmade, needed_of_mem ?_⟩
  rw [Request.cells, functionCells, if_pos ⟨hty, hspecial⟩]
  exact List.mem_singleton_self _

/-- The same requests demand the same, in whatever order. -/
theorem demanded_congr (h : ∀ request, request ∈ first ↔ request ∈ second) (cell : Cell) :
    Demanded table first cell ↔ Demanded table second cell := by
  simp only [demanded_iff, h]

section Built

variable (h : Built table)
include h

/-- One request after the other, a settled session stays settled and grows by what is demanded. -/
theorem grown_after (made : List Request) (hs : Settled table s) :
    Grown table (made.flatMap (Request.cells table)) (after table made s) s := by
  induction made generalizing s with
  | nil => exact .refl hs
  | cons request made ih =>
    obtain ⟨_, hgives, _⟩ := request.definite h
    have hgrown := hgives.grows hs
    rw [List.flatMap_cons]
    exact hgrown.trans (ih hgrown.settled)

theorem settled_after (made : List Request) (hs : Settled table s) :
    Settled table (after table made s) :=
  (grown_after h made hs).settled

theorem knows_after (made : List Request) (hs : Settled table s) (cell : Cell) :
    (after table made s).Knows cell ↔ s.Knows cell ∨ Demanded table made cell :=
  (grown_after h made hs).knows cell

/-- A new session knows what is demanded, and nothing else. -/
theorem knows_after_empty (made : List Request) (cell : Cell) :
    (after table made .empty).Knows cell ↔ Demanded table made cell := by
  rw [knows_after h made (settled_empty table), or_iff_right (not_knows_empty cell)]

/-- Every closure that was asked for has been built. -/
theorem not_pending_after (made : List Request) (key : ClosureKey) :
    ¬(after table made .empty).closures.Pending key := fun hpending =>
  Memo.not_pending_empty ((grown_after h made (settled_empty table)).pending key hpending)

/-- The answer to a request does not depend on what a settled session knows. -/
theorem answer_eq (request : Request) (hs : Settled table s) (hs' : Settled table s') :
    (request.run table s).1 = (request.run table s').1 := by
  obtain ⟨_, hgives, _⟩ := request.definite h
  rw [hgives.answers hs, hgives.answers hs']

end Built

end Session

end HashEq
