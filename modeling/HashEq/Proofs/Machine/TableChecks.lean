import HashEq.Proofs.Machine.Image
import HashEq.Proofs.Machine.Reachable
import HashEq.Proofs.Machine.Symbols

/-!
# Checking tables

The types of a table can be gone through, so what is required of all of them can be
checked for a table at hand: that opaque memory takes up whole blocks, and that no two
types are written alike.

* `TypeTable.types`: the types of a table;
* `TypeTable.opaqueWhole_of_kinds`, `TypeTable.textsDistinct_of_types`: the checks;
* `recordTable`: records with the same contents that are grouped differently.
-/

namespace HashEq

/-- Whether a kind is not opaque memory, or takes up whole blocks of its alignment. -/
def Kind.isWhole : Kind → Bool
  | opaqueMemory size align => decide (align.toNat ∣ size.toNat)
  | _ => true

namespace TypeTable

variable {table : TypeTable} {ty : TypeId}

theorem opaqueWhole_of_kinds (h : ∀ kind ∈ table.kinds, kind.isWhole = true) : table.OpaqueWhole := by
  intro ty size align hty hkind
  have hwhole := h _ hty.kind_mem
  rw [hkind, Kind.isWhole, decide_eq_true_iff] at hwhole
  exact hwhole

/-- The types of a table, in the order in which they were added. -/
def types (table : TypeTable) : List TypeId :=
  (List.range table.size).map fun i => ⟨UInt32.ofNat (TypeId.numberOfSlot i)⟩

theorem Has.mem_types (h : table.Has ty) : ty ∈ table.types := by
  obtain ⟨i, hi, hlt⟩ := has_iff.1 h
  refine List.mem_map.2 ⟨i, List.mem_range.2 hlt, ?_⟩
  rw [← TypeId.raw_of_slot hi, UInt32.ofNat_toNat]

theorem textsDistinct_of_types (h : ∀ a ∈ table.types, ∀ b ∈ table.types, table.base a = .special →
    table.base b = .special → (table.text a).toOption = (table.text b).toOption → a = b) :
    table.TextsDistinct := fun ha hb hbaseA hbaseB htext =>
  h _ ha.mem_types _ hb.mem_types hbaseA hbaseB (congrArg Except.toOption htext)

/-! ### A table of records -/

/-- Kinds of records: the numbers and the value of `flat` are those of `nested`, but for a blank
    field. -/
def recordKinds : List Kind :=
  [.array ⟨5⟩ 2, .struct none [⟨some "high", ⟨7⟩⟩, ⟨some "ratio", ⟨11⟩⟩, ⟨some "name", ⟨14⟩⟩],
    .struct (some "flat") [⟨some "low", ⟨6⟩⟩, ⟨none, ⟨6⟩⟩, ⟨some "high", ⟨7⟩⟩, ⟨some "ratio", ⟨11⟩⟩,
      ⟨some "name", ⟨14⟩⟩, ⟨some "value", ⟨16⟩⟩],
    .struct (some "nested") [⟨some "bytes", ⟨32⟩⟩, ⟨some "rest", ⟨33⟩⟩, ⟨some "more", ⟨16⟩⟩]]

/-- A table with records. -/
def recordTable : TypeTable :=
  ofKinds .amd64 recordKinds

theorem built_recordTable : Built recordTable :=
  built_ofKinds (by decide +kernel)

theorem opaqueWhole_recordTable : recordTable.OpaqueWhole :=
  opaqueWhole_of_kinds (by decide +kernel)

theorem textsDistinct_recordTable : recordTable.TextsDistinct :=
  textsDistinct_of_types (by decide +kernel)

end TypeTable

open TypeTable

/-- Two records with the same contents, one of them nested, and what their strings and interfaces
    point to. -/
def recordArena : Arena where
  bytes :=
    let flat : List Word := [0x0605040309090201, 0x3FF0000000000000, 4200, 2, 5, 4208]
    let nested : List Word := [0x0201, 0x0707070706050403, 0x3FF0000000000000, 4202, 2, 5, 4216]
    let shared : List Word := [0x6B6F6B6F, 7, 7]
    ((flat ++ nested ++ shared).flatMap (Arena.bytesOfWord 8)).toArray
  addressable := by decide +kernel

/-- A machine that holds records and has not been asked anything. -/
def recordMachine : Machine :=
  { Machine.ofTable recordTable with arena := recordArena }

theorem reachable_recordMachine : Machine.Reachable recordTable recordMachine :=
  .memory recordArena .refl

theorem imageWithin_recordArena : ImageWithin recordTable recordArena 2 ⟨34⟩ 4096 ∧
    ImageWithin recordTable recordArena 2 ⟨35⟩ 4144 ∧
    ImageWithin recordTable recordArena 1 ⟨33⟩ 4152 := by decide +kernel

end HashEq
