import HashEq.TypeTable.Basic

/-!
# Runs of plain memory

Neighbouring fields of plain memory with no gap between them can be hashed and
compared as one block of bytes, a *run*. How the fields of a struct are walked
(blank fields skipped, runs taken as a whole) and what a comparison costs is
decided here, for hashing and for equality alike.

* `TypeTable.memoryRun`: the longest run from a field on;
* `TypeTable.fieldCost`: what comparing a field costs, and how far that reaches;
* `TypeTable.leaders`: the fields at which a walk over a struct stops.
-/

namespace HashEq

namespace TypeTable

variable (table : TypeTable)

/-- The offset of the first byte after a field. -/
def fieldEnd (field : Field) : Word :=
  field.offset + table.sizeOf field.ty

/-- The fields of a struct of `size` bytes, each with the offset of what comes next: the next
    field, or the end of the struct. -/
def followed (size : Word) : List Field → List (Field × Word)
  | [] => []
  | [field] => [(field, size)]
  | field :: next :: rest => (field, next.offset) :: followed size (next :: rest)

theorem map_fst_followed (size : Word) (fields : List Field) :
    (followed size fields).map (·.1) = fields := by
  fun_induction followed size fields with
  | case1 => rfl
  | case2 => rfl
  | case3 field next rest ih => rw [List.map_cons, ih]

/-- Whether unused bytes lie between a field and what comes next. -/
def isPadded (field : Field) (next : Word) : Bool :=
  table.fieldEnd field != next

/-- Whether unused bytes follow field `i` of a struct. -/
def isPaddedField (ty : TypeId) (i : Nat) : Bool :=
  match (followed (table.sizeOf ty) (table.fields ty))[i]? with
  | some (field, next) => table.isPadded field next
  | none => false

/-- A run of fields that is treated as one block of memory. -/
structure MemoryRun where
  /-- The bytes from the first field's start to the last field's end. -/
  size : Word
  /-- The first field after the run. -/
  next : Nat
  deriving DecidableEq, Repr

/-- The alignment that every value of a type with alignment `align` guarantees at `offset`. -/
def guaranteedAlign (align offset : Word) : Word :=
  if offset &&& (align - 1) = 0 then align else UInt64.ofNat (lowestBit offset.toNat)

/-- The fields of `rest` that a run takes in after `last`: plain memory without gaps, as long as
    the run may still end where the field does. -/
def extension (fits : Word → Bool) (last : Field) : List Field → List Field
  | [] => []
  | field :: rest =>
    if table.isPadded last field.offset || field.isBlank || !table.isMemory field.ty ||
        !fits (table.fieldEnd field) then []
    else field :: extension fits field rest

/-- The longest run that starts with field `start` of a struct. On a target that needs aligned
    loads, a run does not grow beyond the alignment guaranteed at its start. -/
def memoryRun (ty : TypeId) (start : Nat) : MemoryRun :=
  match (table.fields ty).drop start with
  | [] => ⟨0, start + 1⟩
  | first :: rest =>
    -- A block that is longer than its alignment could not be loaded in one piece.
    let limit := guaranteedAlign (table.alignOf ty) first.offset
    let fits (stop : Word) : Bool := table.target.minAlignment ≤ 1 || stop - first.offset ≤ limit
    let more := table.extension fits first rest
    ⟨table.fieldEnd (more.getLastD first) - first.offset, start + 1 + more.length⟩

theorem lt_memoryRun_next (ty : TypeId) (start : Nat) :
    start < (table.memoryRun ty start).next := by
  unfold memoryRun
  split
  · exact Nat.lt_succ_self start
  · exact Nat.lt_of_lt_of_le (Nat.lt_succ_self start) (Nat.le_add_right _ _)

/-- The fields at which a walk over a struct stops, with their positions: those with a name
    that no earlier stop has covered. A stop at field `i` covers the fields before `next i`, and
    nothing before field `resume` is left to cover. -/
def leaders (next : Nat → Nat) (resume : Nat) : List (Field × Nat) → List (Field × Nat)
  | [] => []
  | (field, i) :: rest =>
    if i < resume || field.isBlank then leaders next resume rest
    else (field, i) :: leaders next (next i) rest

theorem mem_of_mem_leaders {next : Nat → Nat} {resume : Nat} {stops : List (Field × Nat)}
    {stop : Field × Nat} (h : stop ∈ leaders next resume stops) :
    stop ∈ stops ∧ stop.1.isBlank = false := by
  fun_induction leaders next resume stops with
  | case1 => cases h
  | case2 resume field i rest hskip ih => exact ⟨List.mem_cons_of_mem _ (ih h).1, (ih h).2⟩
  | case3 resume field i rest hstop ih =>
    rcases List.mem_cons.1 h with rfl | h
    · rw [Bool.or_eq_true, not_or, Bool.not_eq_true, Bool.not_eq_true] at hstop
      exact ⟨List.mem_cons_self, hstop.2⟩
    · exact ⟨List.mem_cons_of_mem _ (ih h).1, (ih h).2⟩

/-- The costs of comparing values of a type part by part on a target that does not merge loads.
    Strings, interfaces and complex numbers are two words, wide integers as many registers
    as they fill, and all else counts as one. -/
def typeCost (ty : TypeId) : Nat :=
  match _hget : table.get ty with
  | .error _ => 1
  | .ok e =>
    match _hkind : e.kind with
    | .struct _ _ =>
      e.fields.attach.foldr
        (fun ⟨field, _hmem⟩ rest => (if field.isBlank then 0 else typeCost field.ty) + rest) 0
    | .array elem len => len.toNat * typeCost elem
    | .string | .any | .interface _ | .complex64 | .complex128 => 2
    | .int64 | .uint64 => 8 / table.target.registerSize.toNat
    | _ => 1
termination_by ty.raw.toNat
decreasing_by
  · exact UInt32.lt_iff_toNat_lt.1 (part_lt _hget (Entry.field_mem_parts _hmem))
  · exact UInt32.lt_iff_toNat_lt.1 (part_lt _hget (Entry.elem_mem_parts _hkind))

/-- The largest cost that is told apart from larger ones. -/
def maxCost : Nat := UInt64.size - 1

/-- What it costs to compare a field, and the memory that the comparison covers. -/
structure SpanCost where
  cost : Nat
  size : Word
  /-- The first field that is not covered. -/
  next : Nat
  deriving DecidableEq, Repr

/-- The cost of comparing a struct from field `i` on as far as one comparison reaches: the
    registers that a run fills on a target that merges loads, and the field alone on others. -/
def fieldCost (ty : TypeId) (i : Nat) : SpanCost :=
  if table.target.mergesLoads then
    let run := table.memoryRun ty i
    ⟨blocksFor table.target.registerSize.toNat run.size.toNat, run.size, run.next⟩
  else
    match (table.fields ty)[i]? with
    | some field => ⟨min (table.typeCost field.ty) maxCost, table.sizeOf field.ty, i + 1⟩
    | none => ⟨0, 0, i + 1⟩

/-- The cost of comparing two values of a struct type. -/
def structCost (ty : TypeId) : Nat :=
  let stops := leaders (fun i => (table.fieldCost ty i).next) 0 (table.fields ty).zipIdx
  min (stops.foldr (fun (_, i) rest => (table.fieldCost ty i).cost + rest) 0) maxCost

/-- Comparisons up to this cost are written out field by field. -/
def maxInlineCost : Nat := 4

end TypeTable

end HashEq
