import HashEq.Word
import Std.Data.HashMap

/-!
# Memo tables

A memo table computes the value of each key at most once. A key has a cell from
the first request on; the cell is empty while its value is being computed, which
may request other keys of the same table, and never changes once it is filled.

* `Memo.get?_reserve`, `Memo.get?_complete`: what a key's cell answers as it goes
  from missing to empty to filled;
* `Memo.obtain`: the value of a key, computed on the first request;
* `Memo.Request`: a request whose computation makes further requests, answered
  by `Memo.Request.answer`.
-/

namespace HashEq

/-- Values computed at most once per key; a requested key that has no value yet has an
    empty cell. -/
structure Memo (κ ν : Type) [BEq κ] [Hashable κ] where
  cells : Std.HashMap κ (Option ν)

namespace Memo

variable {κ ν : Type} [BEq κ] [Hashable κ]

/-- The table in which nothing has been requested. -/
def empty : Memo κ ν :=
  ⟨∅⟩

instance : Inhabited (Memo κ ν) := ⟨empty⟩

/-- The value of `key`, once it has been computed. -/
def get? (memo : Memo κ ν) (key : κ) : Option ν :=
  (memo.cells[key]?).join

/-- Gives `key` an empty cell, unless it has a cell already. -/
def reserve (memo : Memo κ ν) (key : κ) : Memo κ ν :=
  ⟨memo.cells.insertIfNew key none⟩

/-- Fills the cell of `key`. -/
def complete (memo : Memo κ ν) (key : κ) (value : ν) : Memo κ ν :=
  ⟨memo.cells.insert key (some value)⟩

/-- The number of keys that have been requested. -/
def size (memo : Memo κ ν) : Nat :=
  memo.cells.size

/-- Whether no key has been requested. -/
def isEmpty (memo : Memo κ ν) : Bool :=
  memo.cells.isEmpty

/-- The computed values, in no particular order. -/
def values (memo : Memo κ ν) : List ν :=
  memo.cells.toList.filterMap (·.2)

section Laws

theorem get?_empty (k : κ) : (empty : Memo κ ν).get? k = none := by
  rw [get?, empty, Std.HashMap.getElem?_empty, Option.join_none]

variable [EquivBEq κ] [LawfulHashable κ]

/-- An empty cell answers nothing, and the other cells answer what they did. -/
theorem get?_reserve (memo : Memo κ ν) (key k : κ) : (memo.reserve key).get? k = memo.get? k := by
  unfold get? reserve
  rw [Std.HashMap.getElem?_insertIfNew]
  split
  · next h =>
    have hk : k ∉ memo.cells := fun hk => h.2 ((Std.HashMap.mem_congr h.1).2 hk)
    rw [Std.HashMap.getElem?_eq_none hk]
    rfl
  · rfl

theorem get?_complete (memo : Memo κ ν) (key k : κ) (value : ν) :
    (memo.complete key value).get? k = if key == k then some value else memo.get? k := by
  unfold get? complete
  rw [Std.HashMap.getElem?_insert]
  split
  · rfl
  · rfl

end Laws

/-- Where a state of type `σ` keeps a memo table. -/
structure Place (σ κ ν : Type) [BEq κ] [Hashable κ] where
  read : σ → Memo κ ν
  update : (Memo κ ν → Memo κ ν) → σ → σ

/-- The value of `key` in the table at `place`. The first request gives the key a cell, runs
    `compute` and fills the cell; later requests find the value there. -/
def obtain {σ : Type} {m : Type → Type} [Monad m] [MonadStateOf σ m]
    (place : Place σ κ ν) (key : κ) (compute : m ν) : m ν := do
  match (place.read (← get)).get? key with
  | some value => return value
  | none =>
    modify (place.update (·.reserve key))
    let value ← compute
    modify (place.update (·.complete key value))
    return value

/-- A request for `key` whose computation first makes the requests `inner` and then answers
    `value` plus the answers to them. -/
inductive Request
  | mk (key value : Word) (inner : List Request)

/-- A table of words, and the keys whose computations have started. -/
structure Journal where
  memo : Memo Word Word
  started : Array Word

namespace Request

/-- Where a journal keeps its table. -/
def place : Place Journal Word Word where
  read journal := journal.memo
  update change journal := { journal with memo := change journal.memo }

mutual

/-- Answers a request. -/
def answer : Request → StateM Journal Word
  | mk key value inner =>
    obtain place key do
      modify fun journal => { journal with started := journal.started.push key }
      answerAll value inner

/-- Adds the answers to `inner`, made in order, to `sum`; the sum wraps. -/
def answerAll (sum : Word) : List Request → StateM Journal Word
  | [] => return sum
  | request :: inner => do
    let value ← answer request
    answerAll (sum + value) inner

end

end Request

/-- Answers a request, and tells the keys whose computations it started. -/
def ask (memo : Memo Word Word) (request : Request) : (Word × List Word) × Memo Word Word :=
  let (value, journal) := request.answer.run ⟨memo, #[]⟩
  ((value, journal.started.toList), journal.memo)

end Memo

end HashEq
