import HashEq.Proofs.Machine.PlainMemory
import HashEq.Proofs.Synthesis.Total

/-!
# The leaves of a type

What counts in a value are its *leaves*: blocks of plain memory, numbers, strings
and interfaces, at fixed offsets from the start of the value. Values can be compared
and hashed leaf by leaf, in order. Plain memory is one leaf, whatever it is put
together from, and blank fields have none.

* `TypeTable.leaves`: the leaves of a type;
* `Leaves.equalVia`, `Leaves.hashVia`: comparing and hashing leaf by leaf;
* `Leaves.equalVia_array`, `Leaves.equalVia_struct`: the leaves of a type are those
  of its parts;
* `Structural.equalVia_eq_leaves`, `Structural.hashVia_eq_leaves`: the walk along a
  type comes to the same if all opaque memory takes up whole blocks.
-/

namespace HashEq

/-- What counts in a value. -/
inductive Leaf
  | block (size : Word)
  | float (format : FloatFormat)
  | complex (format : FloatFormat)
  | string
  | interface

namespace Leaf

variable (table : TypeTable) (arena : Arena)

/-- Compares two leaves. The values in interfaces are compared by `dynamic`. -/
def equal (dynamic : TypeId → Word → Word → Except EvalError Bool) (p q : Word) :
    Leaf → Except EvalError Bool
  | block size => Primitives.memoryEqual arena p q size
  | float format => Primitives.floatEqual arena format p q
  | complex format => Primitives.complexEqual arena format p q
  | string => Primitives.stringEqual table arena p q
  | interface => do
    let (pWord, pData) ← Primitives.loadPair table arena p
    let (qWord, qData) ← Primitives.loadPair table arena q
    if pWord ≠ qWord then return false
    if pWord = 0 then return true
    dynamic (← Structural.dynamicType table .uncomparable pWord) pData qData

/-- Hashes a leaf. The values in interfaces are hashed by `dynamic`. -/
def hash (dynamic : TypeId → Word → Word → Except EvalError Word) (p h : Word) :
    Leaf → Except EvalError Word
  | block size => Primitives.memoryHash arena p size h
  | float format => Primitives.floatHash arena format p h
  | complex format => Primitives.complexHash arena format p h
  | string => Primitives.stringHash table arena p h
  | interface => do
    let (word, data) ← Primitives.loadPair table arena p
    if word = 0 then return h
    let ty ← Structural.dynamicType table .unhashable word
    return mixOut * (← dynamic ty data (h ^^^ mixIn))

end Leaf

namespace TypeTable

variable (table : TypeTable)

/-- The leaf that a type without parts is. -/
def leafOf (e : Entry) : Leaf :=
  match e.base with
  | .float32 => .float .single
  | .float64 => .float .double
  | .complex64 => .complex .single
  | .complex128 => .complex .double
  | .string => .string
  | .interface | .nilInterface => .interface
  | _ => .block e.size

/-- The leaves of a part that starts at an offset. -/
def shift (offset : Word) (leaves : List (Word × Leaf)) : List (Word × Leaf) :=
  leaves.map fun leaf => (offset + leaf.1, leaf.2)

/-- The leaves of a type, each with its offset. -/
def leaves (ty : TypeId) : List (Word × Leaf) :=
  match _hget : table.get ty with
  | .error _ => []
  | .ok e =>
    if e.base = .memory then [(0, .block e.size)]
    else
      match _hkind : e.kind with
      | .array elem len => (List.range' 0 len.toNat).flatMap fun i =>
          shift (UInt64.ofNat i * table.sizeOf elem) (leaves elem)
      | .struct _ _ => e.fields.attach.flatMap fun ⟨field, _hmem⟩ =>
          if field.isBlank then [] else shift field.offset (leaves field.ty)
      | _ => [(0, leafOf e)]
termination_by ty.raw.toNat
decreasing_by
  · exact UInt32.lt_iff_toNat_lt.1 (part_lt _hget (Entry.elem_mem_parts _hkind))
  · exact UInt32.lt_iff_toNat_lt.1 (part_lt _hget (Entry.field_mem_parts _hmem))

variable {table} {ty : TypeId} {e : Entry}

theorem leaves_missing {f : Fault} (hget : table.get ty = .error f) : table.leaves ty = [] := by
  rw [leaves]
  split
  · rfl
  · next he => rw [hget] at he; cases he

section Step

variable (hget : table.get ty = .ok e)
include hget

theorem leaves_memory (hbase : e.base = .memory) : table.leaves ty = [(0, .block e.size)] := by
  rw [leaves]
  split
  · next hf => rw [hget] at hf; cases hf
  · next he =>
    rw [hget] at he
    cases he
    rw [if_pos hbase]

theorem leaves_array (hbase : e.base ≠ .memory) {elem : TypeId} {len : Word}
    (hkind : e.kind = .array elem len) :
    table.leaves ty = (List.range' 0 len.toNat).flatMap fun i =>
      shift (UInt64.ofNat i * table.sizeOf elem) (table.leaves elem) := by
  rw [leaves]
  split
  · next hf => rw [hget] at hf; cases hf
  · next he =>
    rw [hget] at he
    cases he
    rw [if_neg hbase]
    split
    · next heq =>
      rw [hkind] at heq
      cases heq
      rfl
    · next heq => rw [hkind] at heq; cases heq
    · next hne _ => exact absurd hkind (hne elem len)

theorem leaves_struct (hbase : e.base ≠ .memory) {name : Option String} {members : List Member}
    (hkind : e.kind = .struct name members) :
    table.leaves ty = e.fields.flatMap fun field =>
      if field.isBlank then [] else shift field.offset (table.leaves field.ty) := by
  rw [leaves]
  split
  · next hf => rw [hget] at hf; cases hf
  · next he =>
    rw [hget] at he
    cases he
    rw [if_neg hbase]
    split
    · next heq => rw [hkind] at heq; cases heq
    · rw [← List.flatMap_map (f := Subtype.val)
        (g := fun field : Field => if field.isBlank then [] else
          shift field.offset (table.leaves field.ty)), List.attach_map_subtype_val]
    · next hne => exact absurd hkind (hne name members)

theorem leaves_leaf (hbase : e.base ≠ .memory)
    (hkind : e.kind.isLeaf = true ∨ e.kind.isInterface = true) :
    table.leaves ty = [(0, leafOf e)] := by
  rw [leaves]
  split
  · next hf => rw [hget] at hf; cases hf
  · next he =>
    rw [hget] at he
    cases he
    rw [if_neg hbase]
    split
    · next heq => simp [heq, Kind.isLeaf, Kind.isInterface] at hkind
    · next heq => simp [heq, Kind.isLeaf, Kind.isInterface] at hkind
    · rfl

end Step

section Members

variable {offset : Word} {leaf : Leaf} {leaves : TypeId → List (Word × Leaf)}

theorem mem_shift {offset' : Word} {list : List (Word × Leaf)} :
    (offset, leaf) ∈ shift offset' list ↔ ∃ inner, (inner, leaf) ∈ list ∧ offset = offset' + inner := by
  simp only [shift, List.mem_map, Prod.exists, Prod.mk.injEq]
  constructor
  · rintro ⟨inner, leaf, hmem, rfl, rfl⟩
    exact ⟨inner, hmem, rfl⟩
  · rintro ⟨inner, hmem, rfl⟩
    exact ⟨inner, leaf, hmem, rfl, rfl⟩

/-- What lies in the elements of an array. -/
theorem mem_elements {elem : TypeId} {len : Word} :
    (offset, leaf) ∈ ((List.range' 0 len.toNat).flatMap fun i =>
      shift (UInt64.ofNat i * table.sizeOf elem) (leaves elem)) ↔
    ∃ i < len.toNat, ∃ inner, (inner, leaf) ∈ leaves elem ∧
      offset = UInt64.ofNat i * table.sizeOf elem + inner := by
  simp only [List.mem_flatMap, mem_shift, List.mem_range'_1, Nat.zero_le, true_and, Nat.zero_add]

/-- What lies in the fields of a struct. -/
theorem mem_fields {fields : List Field} :
    (offset, leaf) ∈ (fields.flatMap fun field =>
      if field.isBlank then [] else shift field.offset (leaves field.ty)) ↔
    ∃ field ∈ fields, field.isBlank = false ∧ ∃ inner, (inner, leaf) ∈ leaves field.ty ∧
      offset = field.offset + inner := by
  rw [List.mem_flatMap]
  refine exists_congr fun field => and_congr_right fun _ => ?_
  cases field.isBlank with
  | true => simp
  | false => simp [mem_shift]

end Members

end TypeTable

/-! ### Comparing and hashing leaf by leaf -/

namespace Leaves

open TypeTable

/-- Compares values of a type leaf by leaf. The values in interfaces are compared by `dynamic`. -/
def equalVia (table : TypeTable) (arena : Arena)
    (dynamic : TypeId → Word → Word → Except EvalError Bool) (ty : TypeId) (p q : Word) :
    Except EvalError Bool :=
  conj ((table.leaves ty).map fun leaf =>
    leaf.2.equal table arena dynamic (p + leaf.1) (q + leaf.1))

/-- Hashes a value of a type leaf by leaf. The values in interfaces are hashed by `dynamic`. -/
def hashVia (table : TypeTable) (arena : Arena)
    (dynamic : TypeId → Word → Word → Except EvalError Word) (ty : TypeId) (p h : Word) :
    Except EvalError Word :=
  (table.leaves ty).foldlM (fun h leaf => leaf.2.hash table arena dynamic (p + leaf.1) h) h

variable {table : TypeTable} {arena : Arena} {ty : TypeId} {e : Entry} {p q h : Word}
  {dynamic : TypeId → Word → Word → Except EvalError Bool}
  {dynamicHash : TypeId → Word → Word → Except EvalError Word}

theorem equalVia_shift (offset : Word) (leaves : List (Word × Leaf)) :
    conj ((shift offset leaves).map fun leaf =>
      leaf.2.equal table arena dynamic (p + leaf.1) (q + leaf.1)) =
    conj (leaves.map fun leaf =>
      leaf.2.equal table arena dynamic (p + offset + leaf.1) (q + offset + leaf.1)) := by
  rw [shift, List.map_map]
  refine conj_map_congr fun leaf _ => ?_
  rw [Function.comp_apply, UInt64.add_assoc, UInt64.add_assoc]

theorem hashVia_shift (offset : Word) (leaves : List (Word × Leaf)) :
    (shift offset leaves).foldlM
      (fun h leaf => leaf.2.hash table arena dynamicHash (p + leaf.1) h) h =
    leaves.foldlM
      (fun h leaf => leaf.2.hash table arena dynamicHash (p + offset + leaf.1) h) h := by
  rw [shift, List.foldlM_map]
  refine foldlM_congr (fun h leaf _ => ?_) h
  rw [UInt64.add_assoc]

section Step

variable (hget : table.get ty = .ok e)
include hget

theorem equalVia_memory (hbase : e.base = .memory) :
    equalVia table arena dynamic ty p q = Primitives.memoryEqual arena p q e.size := by
  rw [equalVia, leaves_memory hget hbase, List.map_singleton, conj_singleton, UInt64.add_zero,
    UInt64.add_zero]
  rfl

theorem hashVia_memory (hbase : e.base = .memory) :
    hashVia table arena dynamicHash ty p h = Primitives.memoryHash arena p e.size h := by
  rw [hashVia, leaves_memory hget hbase, List.foldlM_cons, UInt64.add_zero]
  exact bind_pure _

theorem equalVia_leaf (hbase : e.base ≠ .memory)
    (hkind : e.kind.isLeaf = true ∨ e.kind.isInterface = true) :
    equalVia table arena dynamic ty p q = (leafOf e).equal table arena dynamic p q := by
  rw [equalVia, leaves_leaf hget hbase hkind, List.map_singleton, conj_singleton,
    UInt64.add_zero, UInt64.add_zero]

theorem hashVia_leaf (hbase : e.base ≠ .memory)
    (hkind : e.kind.isLeaf = true ∨ e.kind.isInterface = true) :
    hashVia table arena dynamicHash ty p h = (leafOf e).hash table arena dynamicHash p h := by
  rw [hashVia, leaves_leaf hget hbase hkind, List.foldlM_cons, UInt64.add_zero]
  exact bind_pure _

variable (hbase : e.base ≠ .memory)
include hbase

/-- The leaves of an array are those of its elements, in order. -/
theorem equalVia_array {elem : TypeId} {len : Word} (hkind : e.kind = .array elem len) :
    equalVia table arena dynamic ty p q = conj ((List.range' 0 len.toNat).map fun i =>
      equalVia table arena dynamic elem (p + UInt64.ofNat i * table.sizeOf elem)
        (q + UInt64.ofNat i * table.sizeOf elem)) := by
  rw [equalVia, leaves_array hget hbase hkind, List.map_flatMap, conj_flatMap]
  exact conj_map_congr fun i _ => equalVia_shift _ _

theorem hashVia_array {elem : TypeId} {len : Word} (hkind : e.kind = .array elem len) :
    hashVia table arena dynamicHash ty p h = (List.range' 0 len.toNat).foldlM (fun h i =>
      hashVia table arena dynamicHash elem (p + UInt64.ofNat i * table.sizeOf elem) h) h := by
  rw [hashVia, leaves_array hget hbase hkind, foldlM_flatMap]
  exact foldlM_congr (fun h i _ => hashVia_shift _ _) h

/-- The leaves of a struct are those of its fields that are not blank, in order. -/
theorem equalVia_struct {name : Option String} {members : List Member}
    (hkind : e.kind = .struct name members) :
    equalVia table arena dynamic ty p q = conj (e.fields.map fun field =>
      if field.isBlank then .ok true
      else equalVia table arena dynamic field.ty (p + field.offset) (q + field.offset)) := by
  rw [equalVia, leaves_struct hget hbase hkind, List.map_flatMap, conj_flatMap]
  refine conj_map_congr fun field _ => ?_
  split
  · rfl
  · exact equalVia_shift _ _

theorem hashVia_struct {name : Option String} {members : List Member}
    (hkind : e.kind = .struct name members) :
    hashVia table arena dynamicHash ty p h = e.fields.foldlM (fun h field =>
      if field.isBlank then .ok h
      else hashVia table arena dynamicHash field.ty (p + field.offset) h) h := by
  rw [hashVia, leaves_struct hget hbase hkind, foldlM_flatMap]
  refine foldlM_congr (fun h field _ => ?_) h
  split
  · rfl
  · exact hashVia_shift _ _

end Step

end Leaves

/-! ### The walk along a type -/

namespace Structural

open TypeTable

variable {table : TypeTable} {arena : Arena} {ty : TypeId} {e : Entry} {p q seed : Word}

theorem leafOf_of_isInterface (h : Lawful table) (hget : table.get ty = .ok e)
    (hkind : e.kind.isInterface = true) : leafOf e = .interface := by
  have hlaid := (h.laidOut hget).base
  cases hkind' : e.kind with
  | any | interface _ =>
    rw [hkind'] at hlaid
    rw [leafOf, hlaid]
    rfl
  | _ =>
    rw [hkind'] at hkind
    cases hkind

/-- Of the types without parts, only interfaces are leaves of that kind. -/
theorem leafOf_ne_interface (h : Lawful table) (hget : table.get ty = .ok e)
    (hkind : e.kind.isLeaf = true) : leafOf e ≠ .interface := by
  have hlaid := (h.laidOut hget).base
  cases hkind' : e.kind with
  | array _ _ | struct _ _ | any | interface _ =>
    rw [hkind'] at hkind
    cases hkind
  | _ =>
    rw [hkind'] at hlaid
    rw [leafOf, hlaid]
    exact Leaf.noConfusion

/-- A type that has neither parts nor plain memory, nor is an interface, is a number or a string. -/
theorem base_of_isLeaf (h : Lawful table) (hget : table.get ty = .ok e) (hleaf : e.kind.isLeaf = true)
    (hbase : e.base ≠ .memory) (hne : e.base ≠ .noEquality) :
    e.base = .float32 ∨ e.base = .float64 ∨ e.base = .complex64 ∨ e.base = .complex128 ∨
      e.base = .string := by
  have hlaid := (h.laidOut hget).base
  cases hkind : e.kind with
  | array _ _ | struct _ _ | any | interface _ =>
    rw [hkind] at hleaf
    cases hleaf
  | float32 | float64 | complex64 | complex128 | string =>
    rw [hkind] at hlaid
    rw [hlaid]
    simp [baseOf]
  | slice _ | map _ _ | func _ _ =>
    rw [hkind] at hlaid
    exact absurd hlaid hne
  | _ =>
    rw [hkind] at hlaid
    exact absurd hlaid hbase

theorem equalVia_of_isInterface (hget : table.get ty = .ok e) (hkind : e.kind.isInterface = true)
    (dynamic : TypeId → Word → Word → Except EvalError Bool) :
    equalVia table arena dynamic ty p q = Leaf.interface.equal table arena dynamic p q := by
  rw [equalVia_eq hget]
  cases hkind' : e.kind with
  | any | interface _ => rfl
  | _ =>
    rw [hkind'] at hkind
    cases hkind

theorem hashVia_of_isInterface (hget : table.get ty = .ok e) (hkind : e.kind.isInterface = true)
    (dynamic : TypeId → Word → Word → Except EvalError Word) :
    hashVia table arena dynamic ty p seed = Leaf.interface.hash table arena dynamic p seed := by
  rw [hashVia_eq hget]
  cases hkind' : e.kind with
  | any | interface _ => rfl
  | _ =>
    rw [hkind'] at hkind
    cases hkind

/-- A type without parts is compared like the leaf that it is. -/
theorem equalVia_leafOf (h : Lawful table) (hget : table.get ty = .ok e)
    (hkind : e.kind.isLeaf = true ∨ e.kind.isInterface = true) (hne : e.base ≠ .noEquality)
    (dynamic : TypeId → Word → Word → Except EvalError Bool) :
    equalVia table arena dynamic ty p q = (leafOf e).equal table arena dynamic p q := by
  rcases hkind with hkind | hkind
  · rw [equalVia_of_isLeaf hget hkind]
    by_cases hbase : e.base = .memory
    · rw [leafEqual, leafOf, hbase]
      rfl
    · rcases base_of_isLeaf h hget hkind hbase hne with heq | heq | heq | heq | heq <;>
        rw [leafEqual, leafOf, heq] <;> rfl
  · rw [equalVia_of_isInterface hget hkind, leafOf_of_isInterface h hget hkind]

/-- A type without parts is hashed like the leaf that it is. -/
theorem hashVia_leafOf (h : Lawful table) (hget : table.get ty = .ok e)
    (hkind : e.kind.isLeaf = true ∨ e.kind.isInterface = true) (hne : e.base ≠ .noEquality)
    (dynamic : TypeId → Word → Word → Except EvalError Word) :
    hashVia table arena dynamic ty p seed = (leafOf e).hash table arena dynamic p seed := by
  rcases hkind with hkind | hkind
  · rw [hashVia_of_isLeaf hget hkind]
    by_cases hbase : e.base = .memory
    · rw [leafHash, leafOf, hbase]
      rfl
    · rcases base_of_isLeaf h hget hkind hbase hne with heq | heq | heq | heq | heq <;>
        rw [leafHash, leafOf, heq] <;> rfl
  · rw [hashVia_of_isInterface hget hkind, leafOf_of_isInterface h hget hkind]

section Whole

variable (h : Lawful table) (hwhole : table.OpaqueWhole)
include h hwhole

/-- Plain memory is compared as one block. -/
theorem equalVia_memory (hget : table.get ty = .ok e) (hbase : e.base = .memory)
    (hp : arena.inBounds p (table.sizeOf ty).toNat = true)
    (hq : arena.inBounds q (table.sizeOf ty).toNat = true)
    (dynamic : TypeId → Word → Word → Except EvalError Bool) :
    equalVia table arena dynamic ty p q = Leaves.equalVia table arena dynamic ty p q := by
  have hmemory := (base_of_get hget).trans hbase
  rw [equalVia_of_filled h (h.filled hwhole ⟨e, hget⟩ hmemory) hmemory hp hq,
    Leaves.equalVia_memory hget hbase, ← sizeOf_of_get hget, Primitives.memoryEqual_eq hp hq rfl]

/-- Plain memory is hashed as one block. -/
theorem hashVia_memory (hget : table.get ty = .ok e) (hbase : e.base = .memory)
    (hp : arena.inBounds p (table.sizeOf ty).toNat = true)
    (dynamic : TypeId → Word → Word → Except EvalError Word) :
    hashVia table arena dynamic ty p seed = Leaves.hashVia table arena dynamic ty p seed := by
  have hmemory := (base_of_get hget).trans hbase
  rw [hashVia_of_filled h (h.filled hwhole ⟨e, hget⟩ hmemory) hmemory hp,
    Leaves.hashVia_memory hget hbase, ← sizeOf_of_get hget, Primitives.memoryHash_eq hp rfl]

/-- The walk along a type compares its leaves, if all opaque memory takes up whole blocks. -/
theorem equalVia_eq_leaves (hty : table.Has ty) (hne : table.base ty ≠ .noEquality)
    (hp : arena.inBounds p (table.sizeOf ty).toNat = true)
    (hq : arena.inBounds q (table.sizeOf ty).toNat = true)
    (dynamic : TypeId → Word → Word → Except EvalError Bool) :
    equalVia table arena dynamic ty p q = Leaves.equalVia table arena dynamic ty p q := by
  induction ty using byParts table generalizing p q with
  | missing ty f hget =>
    obtain ⟨e, hget'⟩ := hty
    rw [hget] at hget'
    cases hget'
  | leaf ty e hget hkind =>
    by_cases hbase : e.base = .memory
    · exact equalVia_memory h hwhole hget hbase hp hq dynamic
    rw [base_of_get hget] at hne
    rw [equalVia_leafOf h hget hkind hne, Leaves.equalVia_leaf hget hbase hkind]
  | array ty e elem len hget hkind ih =>
    -- Plain memory is one leaf, though the walk takes it apart.
    by_cases hbase : e.base = .memory
    · exact equalVia_memory h hwhole hget hbase hp hq dynamic
    rw [base_of_get hget] at hne
    rw [sizeOf_of_get hget] at hp hq
    obtain ⟨hhas, hne'⟩ := h.base_part_ne hget hne (Entry.elem_mem_parts hkind)
    rw [equalVia_eq hget, hkind, Leaves.equalVia_array hget hbase hkind]
    refine conj_map_congr fun i hi => ?_
    have hi' : i < len.toNat := by simpa using hi
    obtain ⟨hpi, hpi'⟩ := h.elementAddr_eq hget hp hkind hi'
    obtain ⟨hqi, hqi'⟩ := h.elementAddr_eq hget hq hkind hi'
    rw [hpi, hqi]
    exact ih hhas hne' hpi' hqi'
  | struct ty e name members hget hkind ih =>
    by_cases hbase : e.base = .memory
    · exact equalVia_memory h hwhole hget hbase hp hq dynamic
    rw [base_of_get hget] at hne
    rw [sizeOf_of_get hget] at hp hq
    rw [equalVia_eq hget, hkind, Leaves.equalVia_struct hget hbase hkind]
    refine conj_map_congr fun field hf => ?_
    obtain ⟨hhas, hne'⟩ := h.base_part_ne hget hne (Entry.field_mem_parts hf)
    obtain ⟨hpf, hpf'⟩ := h.add_field hget hp hf
    obtain ⟨hqf, hqf'⟩ := h.add_field hget hq hf
    rw [hpf, hqf]
    split
    · rfl
    · exact ih field hf hhas hne' hpf' hqf'

/-- The walk along a type hashes its leaves, if all opaque memory takes up whole blocks. -/
theorem hashVia_eq_leaves (hty : table.Has ty) (hne : table.base ty ≠ .noEquality)
    (hp : arena.inBounds p (table.sizeOf ty).toNat = true)
    (dynamic : TypeId → Word → Word → Except EvalError Word) :
    hashVia table arena dynamic ty p seed = Leaves.hashVia table arena dynamic ty p seed := by
  induction ty using byParts table generalizing p seed with
  | missing ty f hget =>
    obtain ⟨e, hget'⟩ := hty
    rw [hget] at hget'
    cases hget'
  | leaf ty e hget hkind =>
    by_cases hbase : e.base = .memory
    · exact hashVia_memory h hwhole hget hbase hp dynamic
    rw [base_of_get hget] at hne
    rw [hashVia_leafOf h hget hkind hne, Leaves.hashVia_leaf hget hbase hkind]
  | array ty e elem len hget hkind ih =>
    by_cases hbase : e.base = .memory
    · exact hashVia_memory h hwhole hget hbase hp dynamic
    rw [base_of_get hget] at hne
    rw [sizeOf_of_get hget] at hp
    obtain ⟨hhas, hne'⟩ := h.base_part_ne hget hne (Entry.elem_mem_parts hkind)
    rw [hashVia_eq hget, hkind, Leaves.hashVia_array hget hbase hkind]
    refine foldlM_congr (fun state i hi => ?_) seed
    have hi' : i < len.toNat := by simpa using hi
    obtain ⟨hpi, hpi'⟩ := h.elementAddr_eq hget hp hkind hi'
    rw [hpi]
    exact ih hhas hne' hpi'
  | struct ty e name members hget hkind ih =>
    by_cases hbase : e.base = .memory
    · exact hashVia_memory h hwhole hget hbase hp dynamic
    rw [base_of_get hget] at hne
    rw [sizeOf_of_get hget] at hp
    rw [hashVia_eq hget, hkind, Leaves.hashVia_struct hget hbase hkind]
    refine foldlM_congr (fun state field hf => ?_) seed
    obtain ⟨hhas, hne'⟩ := h.base_part_ne hget hne (Entry.field_mem_parts hf)
    obtain ⟨hpf, hpf'⟩ := h.add_field hget hp hf
    rw [hpf]
    split
    · rfl
    · exact ih field hf hhas hne' hpf'

end Whole

end Structural

end HashEq
