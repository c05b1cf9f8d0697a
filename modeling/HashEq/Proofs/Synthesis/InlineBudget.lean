import HashEq.Proofs.Machine.AlignedPlaces
import HashEq.Proofs.Machine.PlainMemory
import HashEq.Synthesis.Conditions

/-!
# The budget of comparisons that are written out

What comparing a field costs is counted in registers, and fields of plain memory are
compared one by one, without a call, up to a cost of four. On a target that merges
loads the cost is what the bytes of a run fill. On other targets it is added up along
the type of the field, a scalar counting as one. So comparisons are written out for at
most four registers of memory, provided that scalars fit the registers they count for:
memory whose contents are not known counts as one register, however large it is.

* `TypeTable.FitsRegisters`: every byte of a type belongs to a scalar that fits the
  registers it counts for;
* `TypeTable.FitsRegisters.sizeOf_le`: such a type is no larger than its cost says;
* `TypeTable.inline_comparisons`: what is written out stays within four registers, except
  for scalars that are too large.
-/

namespace HashEq

/-- Whether a scalar of plain memory counts as one register although it may be larger. Pointers
    count as one register as well, but are not larger on any target that is considered here. -/
def Kind.countsOnce : Kind → Bool
  | int16 | int32 | uint16 | uint32 | opaqueMemory _ _ => true
  | _ => false

namespace TypeTable

/-- Every byte of a type of plain memory belongs to a scalar that fits the registers it counts
    for. -/
inductive FitsRegisters (table : TypeTable) : TypeId → Prop
  | leaf {ty : TypeId} {e : Entry} : table.get ty = .ok e → e.kind.isLeaf = true →
      (e.kind.countsOnce = true → e.size.toNat ≤ table.target.registerSize.toNat) →
      FitsRegisters table ty
  | array {ty elem : TypeId} {e : Entry} {len : Word} : table.get ty = .ok e →
      e.kind = .array elem len → (len ≠ 0 → FitsRegisters table elem) → FitsRegisters table ty
  | struct {ty : TypeId} {e : Entry} {name : Option String} {members : List Member} :
      table.get ty = .ok e → e.kind = .struct name members →
      Contiguous table 0 e.fields e.size.toNat →
      (∀ field ∈ e.fields, FitsRegisters table field.ty) → FitsRegisters table ty

/-- A comparison covers no more memory than it costs, in registers, unless the cost is larger than
    can be told. -/
def SpanCost.WithinBudget (span : SpanCost) (target : Target) : Prop :=
  span.size.toNat ≤ span.cost * target.registerSize.toNat ∨ span.cost = maxCost

variable {table : TypeTable} {ty : TypeId} {e : Entry} {field : Field} {i : Nat}

/-! ### Costs along types -/

/-- One step of adding up costs. -/
theorem typeCost_eq (hget : table.get ty = .ok e) : table.typeCost ty =
    match e.kind with
    | .struct _ _ =>
      e.fields.foldr
        (fun field rest => (if field.isBlank then 0 else table.typeCost field.ty) + rest) 0
    | .array elem len => len.toNat * table.typeCost elem
    | .string | .any | .interface _ | .complex64 | .complex128 => 2
    | .int64 | .uint64 => 8 / table.target.registerSize.toNat
    | _ => 1 := by
  obtain ⟨⟨fields, size, align⟩, kind, base, flags, ordinal⟩ := e
  rw [typeCost, hget]
  cases kind with
  | struct name members => exact Eq.symm List.foldr_attach.symm
  | _ => rfl

/-- The size of fields without gaps is at most what they cost. -/
theorem Contiguous.le_cost {fields : List Field} {start stop register : Nat}
    (h : Contiguous table start fields stop)
    (hblank : ∀ field ∈ fields, field.isBlank = false)
    (hle : ∀ field ∈ fields,
      (table.sizeOf field.ty).toNat ≤ table.typeCost field.ty * register) :
    stop ≤ start + fields.foldr
      (fun field rest => (if field.isBlank then 0 else table.typeCost field.ty) + rest) 0 *
        register := by
  induction fields generalizing start with
  | nil => exact Nat.le_of_eq (by rw [← h]; simp)
  | cons field fields ih =>
    have hrest := ih h.2 (fun f hf => hblank f (by simp [hf])) fun f hf => hle f (by simp [hf])
    have hfield := hle field (by simp)
    simp only [List.foldr_cons, hblank field (by simp), Bool.false_eq_true, if_false,
      Nat.add_mul]
    omega

/-- On a target that is valid, registers divide eight bytes. -/
theorem registerSize_dvd {target : Target} (h : target.isValid = true) :
    0 < target.registerSize.toNat ∧ target.registerSize.toNat ∣ 8 := by
  simp only [Target.isValid, Bool.and_eq_true, decide_eq_true_iff] at h
  obtain ⟨⟨⟨_, hpower⟩, hle⟩, _⟩ := h
  obtain ⟨k, hk⟩ := isPowerOfTwo_iff.1 hpower
  have hle' : Nat.pow 2 k ≤ Nat.pow 2 3 := hk ▸ UInt64.le_iff_toNat_le.1 hle
  have hk3 : k ≤ 3 := (Nat.pow_le_pow_iff_right (by decide)).1 hle'
  refine ⟨pos_of_isPowerOfTwo hpower, ?_⟩
  rw [hk]
  exact Nat.pow_dvd_pow 2 hk3

/-- A scalar of plain memory that fits its registers. -/
theorem Lawful.size_le_of_isLeaf (h : Lawful table)
    (hpointer : table.target.pointerSize.toNat ≤ table.target.registerSize.toNat)
    (hget : table.get ty = .ok e) (hbase : e.base = .memory) (hleaf : e.kind.isLeaf = true)
    (hfits : e.kind.countsOnce = true → e.size.toNat ≤ table.target.registerSize.toNat) :
    e.size.toNat ≤ table.typeCost ty * table.target.registerSize.toNat := by
  obtain ⟨hpos, hdvd⟩ := registerSize_dvd h.valid
  have hlaid := (h.laidOut hget).base
  have hlayout := (h.laidOut hget).layout
  rw [typeCost_eq hget]
  have hsize : ∀ {size align : Word}, (Except.ok ⟨[], size, align⟩ : Except Fault Layout) =
      .ok e.toLayout → e.size = size := fun hlayout => by rw [← Except.ok.inj hlayout]
  cases hkind : e.kind with
  | int16 | int32 | uint16 | uint32 | opaqueMemory size align =>
    -- The cost of one says nothing of the size, which is why the scalar has to fit.
    rw [Nat.one_mul]
    exact hfits (by rw [hkind]; rfl)
  | bool | int8 | uint8 =>
    rw [hkind] at hlayout
    rw [hsize hlayout, Nat.one_mul]
    exact hpos
  | int64 | uint64 =>
    rw [hkind] at hlayout
    rw [hsize hlayout]
    exact Nat.le_of_eq (Nat.div_mul_cancel hdvd).symm
  | uintptr | unsafePointer | pointer _ | chan _ =>
    rw [hkind] at hlayout
    rw [hsize hlayout, Nat.one_mul]
    exact hpointer
  | array _ _ | struct _ _ | any | interface _ =>
    rw [hkind] at hleaf
    cases hleaf
  | _ =>
    -- No other kind is plain memory.
    rw [hkind, hbase] at hlaid
    cases hlaid

/-- A type of plain memory is no larger than its cost says, if its scalars fit the registers they
    count for. -/
theorem FitsRegisters.sizeOf_le (hfits : table.FitsRegisters ty) (h : Lawful table)
    (hpointer : table.target.pointerSize.toNat ≤ table.target.registerSize.toNat)
    (hbase : table.base ty = .memory) :
    (table.sizeOf ty).toNat ≤ table.typeCost ty * table.target.registerSize.toNat := by
  induction hfits with
  | leaf hget hleaf hfits =>
    rw [base_of_get hget] at hbase
    rw [sizeOf_of_get hget]
    exact h.size_le_of_isLeaf hpointer hget hbase hleaf hfits
  | @array ty elem e len hget hkind _ ih =>
    rw [base_of_get hget] at hbase
    rw [sizeOf_of_get hget, (h.size_eq_saturatingMul hget hkind).1, Word.toNat_saturatingMul,
      typeCost_eq hget, hkind]
    by_cases hlen : len = 0
    · simp [hlen]
    · -- An array that no memory can hold is not larger than its elements are together.
      have helem := ih hlen (h.base_elem hget hbase hkind hlen)
      calc min ((table.sizeOf elem).toNat * len.toNat) (UInt64.size - 1)
          ≤ (table.sizeOf elem).toNat * len.toNat := Nat.min_le_left _ _
        _ ≤ table.typeCost elem * table.target.registerSize.toNat * len.toNat :=
          Nat.mul_le_mul_right _ helem
        _ = len.toNat * table.typeCost elem * table.target.registerSize.toNat := by
          rw [Nat.mul_comm, ← Nat.mul_assoc]
  | struct hget hkind hcontiguous _ ih =>
    -- Fields of plain memory are not blank, so all of them are counted.
    rw [base_of_get hget] at hbase
    obtain ⟨hplain, -⟩ := h.memory_struct hget hbase hkind
    have hle := hcontiguous.le_cost (fun field hf => (hplain field hf).1)
      fun field hf => ih field hf (hplain field hf).2
    rw [sizeOf_of_get hget, typeCost_eq hget, hkind]
    rwa [Nat.zero_add] at hle

/-! ### Comparisons -/

/-- Comparisons that are written out stay within the budget, and what exceeds it is compared by a
    call. -/
structure BoundedInline (table : TypeTable) (ty : TypeId) (field : Field) (i : Nat) : Prop where
  budget : (table.fieldCost ty i).WithinBudget table.target
  /-- What is written out covers no more memory than four registers hold. -/
  inline : ∀ j, .same j ∈ table.fieldConditions ty field i →
    (table.fieldCost ty i).size.toNat ≤ maxInlineCost * table.target.registerSize.toNat
  /-- What covers more is a call. -/
  called : maxInlineCost * table.target.registerSize.toNat < (table.fieldCost ty i).size.toNat →
    table.fieldConditions ty field i = [.block i (table.fieldCost ty i).size]

/-- What is written out within the budget covers at most four registers. -/
theorem SpanCost.WithinBudget.size_le {span : SpanCost} {target : Target}
    (h : span.WithinBudget target) (hcost : span.cost ≤ maxInlineCost) :
    span.size.toNat ≤ maxInlineCost * target.registerSize.toNat := by
  rcases h with h | h
  · exact Nat.le_trans h (Nat.mul_le_mul_right _ hcost)
  · rw [h] at hcost
    exact absurd hcost (by decide)

/-- Plain memory is compared field by field up to the largest cost that is written out, and as one
    block beyond it. -/
theorem fieldConditions_of_isMemory (hmemory : table.isMemory field.ty = true) :
    table.fieldConditions ty field i =
      if (table.fieldCost ty i).cost ≤ maxInlineCost then
        (List.range' i ((table.fieldCost ty i).next - i)).map .same
      else [.block i (table.fieldCost ty i).size] := by
  rw [fieldConditions, if_pos hmemory]

/-- The budget decides what is written out. -/
theorem boundedInline_of_withinBudget (hmemory : table.isMemory field.ty = true)
    (hbudget : (table.fieldCost ty i).WithinBudget table.target) :
    table.BoundedInline ty field i := by
  refine ⟨hbudget, fun j hj => ?_, fun hlarge => ?_⟩
  · refine hbudget.size_le (Decidable.by_contra fun hcost => ?_)
    simp [fieldConditions_of_isMemory hmemory, hcost] at hj
  · rw [fieldConditions_of_isMemory hmemory, if_neg fun hcost => ?_]
    exact absurd (hbudget.size_le hcost) (by omega)

/-- Where loads are not merged, fields are compared one by one. -/
theorem fieldCost_of_not_mergesLoads (hmerges : table.target.mergesLoads = false)
    (hget : table.get ty = .ok e) (hfield : e.fields[i]? = some field) :
    table.fieldCost ty i =
      ⟨min (table.typeCost field.ty) maxCost, table.sizeOf field.ty, i + 1⟩ := by
  rw [fieldCost, hmerges, fields_of_get hget, hfield]
  rfl

/-- A comparison costs what it covers if loads are merged or scalars fit the registers. -/
theorem Lawful.fieldCost_withinBudget (h : Lawful table)
    (hpointer : table.target.pointerSize.toNat ≤ table.target.registerSize.toNat)
    (hget : table.get ty = .ok e) (hfield : e.fields[i]? = some field)
    (hbase : table.base field.ty = .memory)
    (hfits : table.target.mergesLoads = true ∨ table.FitsRegisters field.ty) :
    (table.fieldCost ty i).WithinBudget table.target := by
  rcases hmerges : table.target.mergesLoads with _ | _
  · have hle := (hfits.resolve_left (by simp [hmerges])).sizeOf_le h hpointer hbase
    rw [fieldCost_of_not_mergesLoads hmerges hget hfield]
    rcases Nat.le_total (table.typeCost field.ty) maxCost with hcost | hcost
    · refine .inl ?_
      rwa [Nat.min_eq_left hcost]
    · exact .inr (Nat.min_eq_right hcost)
  · rw [fieldCost, if_pos hmerges]
    exact .inl ((blocksFor_le_iff (registerSize_dvd h.valid).1).1 (Nat.le_refl _))

/-- What counts as one register costs as much, whatever its size. -/
theorem typeCost_of_countsOnce (hget : table.get ty = .ok e)
    (hscalar : e.kind.countsOnce = true) : table.typeCost ty = 1 := by
  rw [typeCost_eq hget]
  cases hkind : e.kind with
  | int16 | int32 | uint16 | uint32 | opaqueMemory _ _ => rfl
  | _ => simp [hkind, Kind.countsOnce] at hscalar

/-- Comparisons of plain memory that are written out stay within four registers where loads are
    merged, and elsewhere if all scalars fit the registers that they count for. A scalar that does
    not fit exceeds the budget, and is compared without a call all the same. -/
theorem inline_comparisons (hbuilt : Built table)
    (hpointer : table.target.pointerSize.toNat ≤ table.target.registerSize.toNat)
    (hget : table.get ty = .ok e) (hfield : e.fields[i]? = some field)
    (hmemory : table.isMemory field.ty = true) :
    (table.target.mergesLoads = true ∨ table.FitsRegisters field.ty →
      table.BoundedInline ty field i) ∧
    (table.target.mergesLoads = false → (table.kind field.ty).countsOnce = true →
      ((table.fieldCost ty i).WithinBudget table.target ↔
        (table.sizeOf field.ty).toNat ≤ table.target.registerSize.toNat) ∧
      table.fieldConditions ty field i = [.same i]) := by
  have h := hbuilt.lawful
  have hbase : table.base field.ty = .memory := by simpa [isMemory] using hmemory
  refine ⟨fun hfits => boundedInline_of_withinBudget hmemory
    (h.fieldCost_withinBudget hpointer hget hfield hbase hfits), fun hmerges hscalar => ?_⟩
  obtain ⟨e', he'⟩ := h.field_has hget (List.mem_of_getElem? hfield)
  rw [kind_of_get he'] at hscalar
  have hcost : table.fieldCost ty i = ⟨1, table.sizeOf field.ty, i + 1⟩ := by
    rw [fieldCost_of_not_mergesLoads hmerges hget hfield, typeCost_of_countsOnce he' hscalar]
    rfl
  constructor
  · have hmax : 1 ≠ maxCost := by decide
    rw [hcost, SpanCost.WithinBudget, Nat.one_mul, or_iff_left hmax]
  · rw [fieldConditions_of_isMemory hmemory, hcost, if_pos (show 1 ≤ maxInlineCost by decide)]
    simp

/-- Two fields of a struct for registers of four bytes: a number that fits its register, and opaque
    memory of eight bytes that counts as one. -/
theorem inline_comparisons_strict :
    strictTable.BoundedInline ⟨33⟩ ⟨⟨some "wide", ⟨7⟩⟩, 12⟩ 2 ∧
      ¬(strictTable.fieldCost ⟨33⟩ 1).WithinBudget strictTable.target ∧
      strictTable.fieldConditions ⟨33⟩ ⟨⟨some "block", ⟨32⟩⟩, 2⟩ 1 = [.same 1] := by
  have hbuilt : Built strictTable := built_ofKinds (by decide +kernel)
  have hget : strictTable.get ⟨33⟩ = .ok (strictTable.entry ⟨33⟩) := by decide +kernel
  have hfieldWide : (strictTable.entry ⟨33⟩).fields[2]? = some ⟨⟨some "wide", ⟨7⟩⟩, 12⟩ := by
    decide +kernel
  have hfieldBlock : (strictTable.entry ⟨33⟩).fields[1]? = some ⟨⟨some "block", ⟨32⟩⟩, 2⟩ := by
    decide +kernel
  have hwide := inline_comparisons hbuilt (by decide +kernel) hget hfieldWide (by decide +kernel)
  have hblock := inline_comparisons hbuilt (by decide +kernel) hget hfieldBlock (by decide +kernel)
  have hfits : strictTable.FitsRegisters ⟨7⟩ :=
    .leaf (e := strictTable.entry ⟨7⟩) (by decide +kernel) (by decide +kernel)
      fun _ => by decide +kernel
  obtain ⟨hbudget, hconditions⟩ := hblock.2 (by decide +kernel) (by decide +kernel)
  refine ⟨hwide.1 (.inr hfits), fun hwithin => ?_, hconditions⟩
  exact absurd (hbudget.1 hwithin) (by decide +kernel)

end TypeTable

end HashEq
