import HashEq.Algorithm
import HashEq.Kind
import HashEq.Target

/-!
# Type tables

A type table holds the types of one program for one target: for every type its
kind, its layout, its base algorithm and a few flags that spare later questions
a walk through the type. The types that a type is laid out from, its *parts*,
come before it.

* `TypeTable.get`: the entry of a type, a fault for a number that names none;
* `TypeTable.part_lt`: the parts of a type have smaller numbers.
-/

namespace HashEq

/-- What is worth knowing about a type at a glance. -/
structure TypeFlags where
  /-- Comparing two values can panic: they may hold interfaces. -/
  canPanic : Bool
  /-- A struct or an array. -/
  isAggregate : Bool
  /-- A struct with unused bytes after at least one field. -/
  hasPadding : Bool
  /-- A struct declared under a name. -/
  isNamed : Bool
  deriving DecidableEq, Repr

/-- The names of the flags that are set. -/
def TypeFlags.names (flags : TypeFlags) : List String :=
  [(flags.canPanic, "CAN_PANIC"), (flags.isAggregate, "IS_AGGREGATE"),
    (flags.hasPadding, "HAS_PADDING"), (flags.isNamed, "IS_NAMED")].filterMap fun (set, name) =>
      if set then some name else none

/-- How values of a type lie in memory. -/
structure Layout where
  /-- The fields of a struct, in order; none for other types. -/
  fields : List Field
  size : Word
  align : Word
  deriving DecidableEq, Repr

/-- What a table knows about a type. -/
structure Entry extends Layout where
  kind : Kind
  base : BaseAlgorithm
  flags : TypeFlags
  /-- The number of earlier structs declared under the same name. -/
  ordinal : Nat
  deriving DecidableEq, Repr

namespace Entry

instance : Inhabited Entry where
  default :=
    { kind := .opaqueMemory 0 1, fields := [], size := 0, align := 1, base := .memory,
      flags := ⟨false, false, false, false⟩, ordinal := 0 }

/-- The types that a type is laid out from: elements and fields. -/
def parts (e : Entry) : List TypeId :=
  e.kind.elem?.toList ++ e.fields.map (·.ty)

theorem field_mem_parts {e : Entry} {f : Field} (hf : f ∈ e.fields) : f.ty ∈ e.parts :=
  List.mem_append_right _ (List.mem_map_of_mem hf)

theorem elem_mem_parts {e : Entry} {elem : TypeId} {len : Word} (hk : e.kind = .array elem len) :
    elem ∈ e.parts := by
  simp [parts, hk, Kind.elem?]

end Entry

/-- The types of a program, in the order in which they were added. -/
structure TypeTable where
  target : Target
  entries : Array Entry
  /-- Parts come before the types that are laid out from them. -/
  parts_lt : ∀ i (h : i < entries.size), ∀ ty ∈ entries[i].parts,
    ty.raw.toNat < TypeId.numberOfSlot i

namespace TypeTable

variable (table : TypeTable)

/-- The number of types, the primitive ones included. -/
def size : Nat :=
  table.entries.size

/-- The entry of a type. -/
def get (ty : TypeId) : Except Fault Entry := do
  let slot ← ty.slot
  match table.entries[slot]? with
  | some e => return e
  | none => throw .index

/-- The entry of a type of this table; of any other, that of an empty type. -/
def entry (ty : TypeId) : Entry :=
  match table.get ty with
  | .ok e => e
  | .error _ => default

/-- The kind of a type. -/
def kind (ty : TypeId) : Kind := (table.entry ty).kind

/-- The bytes that a value takes up. -/
def sizeOf (ty : TypeId) : Word := (table.entry ty).size

/-- The alignment of values. -/
def alignOf (ty : TypeId) : Word := (table.entry ty).align

/-- The base algorithm of a type. -/
def base (ty : TypeId) : BaseAlgorithm := (table.entry ty).base

/-- The fields of a struct; none for other types. -/
def fields (ty : TypeId) : List Field := (table.entry ty).fields

/-- The flags of a type. -/
def flags (ty : TypeId) : TypeFlags := (table.entry ty).flags

/-- Whether values are hashed and compared byte by byte. -/
def isMemory (ty : TypeId) : Bool :=
  table.base ty == .memory

/-- Whether comparing two values can panic. -/
def canPanic (ty : TypeId) : Bool :=
  (table.flags ty).canPanic

/-- Whether this is the type of strings. -/
def isString (ty : TypeId) : Bool :=
  table.kind ty == .string

/-- The element type and length of an array type. -/
def arrayElem? (ty : TypeId) : Option (TypeId × Word) :=
  match table.kind ty with
  | .array elem len => some (elem, len)
  | _ => none

/-- What tells a struct from the earlier ones declared under its name, if there are any. -/
def ordinal? (ty : TypeId) : Option Nat :=
  match (table.entry ty).ordinal with
  | 0 => none
  | n => some n

variable {table}

theorem get_eq_ok_iff {ty : TypeId} {e : Entry} :
    table.get ty = .ok e ↔ ∃ i, ty.slot = .ok i ∧ table.entries[i]? = some e := by
  unfold get
  cases ty.slot with
  | error f => simp [bind, Except.bind]
  | ok i =>
    cases he : table.entries[i]? with
    | none => simp [bind, Except.bind, throw, throwThe, MonadExceptOf.throw, he]
    | some e' => simp [bind, Except.bind, pure, Except.pure, he]

theorem entry_of_get {ty : TypeId} {e : Entry} (h : table.get ty = .ok e) : table.entry ty = e := by
  rw [entry, h]

/-- The parts of a type have smaller numbers. -/
theorem part_lt {ty part : TypeId} {e : Entry} (h : table.get ty = .ok e) (hp : part ∈ e.parts) :
    part.raw < ty.raw := by
  obtain ⟨i, hi, he⟩ := get_eq_ok_iff.1 h
  obtain ⟨hlt, rfl⟩ := Array.getElem?_eq_some_iff.1 he
  rw [UInt32.lt_iff_toNat_lt, TypeId.raw_of_slot hi]
  exact table.parts_lt i hlt part hp

/-- A type with parts is a type of the table, so its parts have smaller numbers. -/
theorem part_lt_of_mem {ty part : TypeId} (hp : part ∈ (table.entry ty).parts) :
    part.raw < ty.raw := by
  cases h : table.get ty with
  | ok e =>
    rw [entry_of_get h] at hp
    exact part_lt h hp
  | error f =>
    rw [entry, h] at hp
    cases hp

end TypeTable

end HashEq
