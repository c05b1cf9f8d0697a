import HashEq.Word
import Std.Data.HashMap

/-!
# Name tables

A name table gives every text a small number, its name, once and for all: the
position at which the text was first seen. A few texts are known from the start.
The table keeps a map, which finds names by text, beside the texts themselves, which
are found by name.

* `NameTable.push`: puts a text at the end, unseen;
* `NameTable.intern`: the name of a text, old or new (`NameTable.intern_eq_insert`);
* `NameTable.assign`: the same, as long as there are names left;
* `NameTable.lookup`: the text of a name;
* `NameTable.run`: the answer to a call.
-/

namespace HashEq

/-- The number that stands for a text in a name table. -/
@[ext]
structure Name where
  index : Nat
  deriving DecidableEq, Hashable, Repr

namespace Name

/-- Whether this is the name of the empty text, which every table puts first. -/
def isEmpty (name : Name) : Bool :=
  name.index == 0

/-- A name as it is shown to a person who looks into a table. -/
def debugText (name : Name) : String :=
  "Name(" ++ toString name.index ++ ")"

end Name

/-- Texts in the order in which they were first seen, and the name of each of them. -/
structure NameTable where
  names : Std.HashMap String Name
  texts : Array String

namespace NameTable

/-- The texts that every table knows from the start. -/
def wellKnown : List String :=
  ["", "_", "p", "q", "h", "r", "i", "neq", "ret", "runtime"]

/-- The table without any texts. -/
def empty : NameTable :=
  ⟨∅, #[]⟩

/-- Puts a text at the end, under the next number. Whether the table knows it is not asked. -/
def push (table : NameTable) (text : String) : Name × NameTable :=
  let name : Name := ⟨table.texts.size⟩
  (name, ⟨table.names.insert text name, table.texts.push text⟩)

/-- The table that has seen nothing yet. -/
def initial : NameTable :=
  wellKnown.foldl (fun table text => (table.push text).2) empty

/-- The name of a text that the table knows. -/
def find? (table : NameTable) (text : String) : Option Name :=
  table.names[text]?

/-- The name of `text`, which is put at the end if the table does not know it. -/
def insert (table : NameTable) (text : String) : Name × NameTable :=
  match table.find? text with
  | some name => (name, table)
  | none => table.push text

/-- The name of `text`. Most texts are known, so the table is only changed, with another look,
    after a first one has failed. -/
def intern (table : NameTable) (text : String) : Name × NameTable :=
  match table.find? text with
  | some name => (name, table)
  | none => table.insert text

/-- The text of a name, empty for a name that the table never gave. -/
def lookup (table : NameTable) (name : Name) : String :=
  table.texts[name.index]?.getD ""

/-- The number of texts, those known from the start included. -/
def size (table : NameTable) : Nat :=
  table.texts.size

/-- Whether nothing was added to the texts known from the start. -/
def isEmpty (table : NameTable) : Bool :=
  table.size ≤ wellKnown.length

/-- The name of `text`, as long as there is one: names are 32-bit numbers, and a table that has
    given all of them takes in no more texts. -/
def assign (table : NameTable) (text : String) : Except String (Name × NameTable) :=
  if (table.find? text).isSome ∨ table.size < UInt32.size then .ok (table.intern text)
  else .error ("symbol table full at " ++ toString table.size ++ " entries")

/-- What is asked of a name table. A text comes with a buffer that the table may keep, or
    without one. -/
inductive Call
  | intern (text : String)
  | internOwned (text : String)
  | lookup (name : Name)
  | size
  | isEmpty

/-- What a name table answers. -/
inductive Answer
  | name (name : Name)
  | text (text : String)
  | count (n : Nat)
  | flag (b : Bool)
  deriving DecidableEq, Repr

/-- The answer to a call, with the table that is left. -/
def run (table : NameTable) : Call → Except String (Answer × NameTable)
  | .intern text | .internOwned text => do
    let (name, later) ← table.assign text
    return (.name name, later)
  | .lookup name => return (.text (table.lookup name), table)
  | .size => return (.count table.size, table)
  | .isEmpty => return (.flag table.isEmpty, table)

variable {table : NameTable} {text : String} {name : Name}

theorem intern_of_find?_eq_some (h : table.find? text = some name) :
    table.intern text = (name, table) := by
  rw [intern, h]

theorem intern_of_find?_eq_none (h : table.find? text = none) :
    table.intern text = table.push text := by
  rw [intern, h]
  dsimp only
  rw [insert, h]

/-- The first look is a shortcut. -/
theorem intern_eq_insert (table : NameTable) (text : String) :
    table.intern text = table.insert text := by
  rw [insert]
  cases h : table.find? text with
  | some name => exact intern_of_find?_eq_some h
  | none => exact intern_of_find?_eq_none h

theorem find?_push (table : NameTable) (text s : String) :
    (table.push text).2.find? s = if text = s then some ⟨table.size⟩ else table.find? s := by
  rw [find?, push, Std.HashMap.getElem?_insert]
  simp only [beq_iff_eq]
  rfl

theorem texts_push (table : NameTable) (text : String) :
    (table.push text).2.texts = table.texts.push text :=
  rfl

/-- A name that is given is the one the text had, or a new one. -/
theorem assign_cases {later : NameTable} (h : table.assign text = .ok (name, later)) :
    (table.find? text = some name ∧ later = table) ∨
      (table.find? text = none ∧ table.size < UInt32.size ∧ table.push text = (name, later)) := by
  unfold assign at h
  split at h
  · next hroom =>
    have hintern : table.intern text = (name, later) := Except.ok.inj h
    cases hfind : table.find? text with
    | some given =>
      rw [intern_of_find?_eq_some hfind] at hintern
      cases hintern
      exact .inl ⟨rfl, rfl⟩
    | none =>
      rw [intern_of_find?_eq_none hfind] at hintern
      exact .inr ⟨rfl, hroom.resolve_left (by rw [hfind]; exact nofun), hintern⟩
  · cases h

theorem assign_eq_error_iff {message : String} : table.assign text = .error message ↔
    table.find? text = none ∧ UInt32.size ≤ table.size ∧
      message = "symbol table full at " ++ toString table.size ++ " entries" := by
  unfold assign
  split
  · next hroom =>
    refine iff_of_false nofun fun ⟨hfind, hfull, _⟩ => ?_
    rw [hfind] at hroom
    exact hroom.elim nofun (Nat.not_lt.2 hfull)
  · next hfull =>
    rw [not_or, Option.not_isSome_iff_eq_none, Nat.not_lt] at hfull
    rw [Except.error.injEq]
    exact ⟨fun heq => ⟨hfull.1, hfull.2, heq.symm⟩, fun ⟨_, _, heq⟩ => heq.symm⟩

end NameTable

end HashEq
