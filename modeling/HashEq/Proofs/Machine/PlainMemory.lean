import HashEq.Proofs.Machine.Walk

/-!
# Plain memory

A type of plain memory is compared and hashed as one block of bytes. The walk along
the type does the same if it comes by every byte.
-/

namespace HashEq

namespace TypeTable

/-- Every byte of a value of a type belongs to a part without parts of its own. -/
inductive Filled (table : TypeTable) : TypeId → Prop
  | leaf {ty : TypeId} {e : Entry} : table.get ty = .ok e → e.kind.isLeaf = true → Filled table ty
  | array {ty elem : TypeId} {e : Entry} {len : Word} : table.get ty = .ok e →
      e.kind = .array elem len → (len ≠ 0 → Filled table elem) → Filled table ty
  | struct {ty : TypeId} {e : Entry} {name : Option String} {members : List Member} :
      table.get ty = .ok e → e.kind = .struct name members →
      Contiguous table 0 e.fields e.size.toNat →
      (∀ field ∈ e.fields, Filled table field.ty) → Filled table ty

variable {table : TypeTable} {arena : Arena} {ty : TypeId} {e : Entry} {p q : Word}

theorem Contiguous.le {fields : List Field} {start stop : Nat}
    (h : Contiguous table start fields stop) : start ≤ stop := by
  induction fields generalizing start with
  | nil => exact Nat.le_of_eq h
  | cons field fields ih => exact Nat.le_trans (Nat.le_add_right _ _) (ih h.2)

/-- The bytes of fields without gaps. -/
theorem Contiguous.bytesAt {fields : List Field} {start stop : Nat}
    (h : Contiguous table start fields stop) {offset : Word} (ho : offset.toNat = start)
    (hp : arena.inBounds p stop = true) :
    arena.bytesAt (p + offset) (stop - start) = fields.flatMap fun field =>
      arena.bytesAt (p + field.offset) (table.sizeOf field.ty).toNat := by
  induction fields generalizing start offset with
  | nil =>
    rw [h, Nat.sub_self, Arena.bytesAt_zero, List.flatMap_nil]
  | cons field fields ih =>
    obtain ⟨hoffset, hrest⟩ := h
    have hle := hrest.le
    have hstop := Arena.lt_of_inBounds hp
    have hend : (offset + table.sizeOf field.ty).toNat =
        start + (table.sizeOf field.ty).toNat := by
      unfold UInt64.size at hstop
      rw [UInt64.toNat_add, ho, Nat.mod_eq_of_lt (by omega)]
    have heq : field.offset = offset := by rw [← UInt64.toNat_inj, hoffset, ho]
    have hsplit : stop - start = (table.sizeOf field.ty).toNat +
        (stop - (start + (table.sizeOf field.ty).toNat)) := by omega
    rw [hsplit, Arena.bytesAt_append (Arena.inBounds_add hp (by omega)) rfl, List.flatMap_cons, heq,
      UInt64.add_assoc, ih hrest hend]

/-- The bytes of a struct that its fields fill. -/
theorem Contiguous.bytesAt_all {fields : List Field} {size : Nat}
    (h : Contiguous table 0 fields size) (hp : arena.inBounds p size = true) :
    arena.bytesAt p size = fields.flatMap fun field =>
      arena.bytesAt (p + field.offset) (table.sizeOf field.ty).toNat := by
  have hall : arena.bytesAt (p + 0) (size - 0) = _ := h.bytesAt rfl hp
  rwa [UInt64.add_zero, Nat.sub_zero] at hall

/-! ### Types of plain memory -/

namespace Lawful

variable (h : Lawful table) (hget : table.get ty = .ok e) (hbase : e.base = .memory)
include h hget hbase

theorem base_elem {elem : TypeId} {len : Word} (hkind : e.kind = .array elem len)
    (hlen : len ≠ 0) : table.base elem = .memory := by
  have hlaid := (h.laidOut hget).base
  rw [hkind, hbase, baseOf, arrayBase] at hlaid
  split at hlaid
  · exact hlaid.symm
  · split at hlaid
    · exact hlaid.symm
    · cases hlaid

/-- The fields of a struct of plain memory are plain memory too, and fill the struct unless there
    is but one. -/
theorem memory_struct {name : Option String} {members : List Member}
    (hkind : e.kind = .struct name members) :
    (∀ field ∈ e.fields, field.isBlank = false ∧ table.base field.ty = .memory) ∧
      ((∃ field, e.fields = [field]) ∨ Contiguous table 0 e.fields e.size.toNat) := by
  have hlaid := (h.laidOut hget).base
  rw [hkind, hbase, baseOf] at hlaid
  unfold structBase at hlaid
  split at hlaid
  · next name ty offset hfields =>
    rw [hfields]
    exact ⟨by simpa [Field.isBlank] using hlaid.symm, .inl ⟨_, rfl⟩⟩
  · split at hlaid
    · cases hlaid
    · split at hlaid
      · cases hlaid
      · next hnone =>
        rw [Bool.not_eq_true, List.any_eq_false] at hnone
        have hplain : ∀ field next, (field, next) ∈ followed e.size e.fields →
            (field.isBlank = false ∧ table.base field.ty = .memory) ∧
              table.isPadded field next = false := by
          intro field next hmem
          have hfield := hnone (field, next) hmem
          simp only [isMemory, Bool.or_eq_true, Bool.not_eq_true', beq_eq_false_iff_ne, ne_eq,
            not_or, Bool.not_eq_true, Decidable.not_not] at hfield
          exact hfield
        refine ⟨fun field hf => ?_, .inr ?_⟩
        · rw [← map_fst_followed e.size e.fields] at hf
          obtain ⟨⟨_, next⟩, hmem, rfl⟩ := List.mem_map.1 hf
          exact (hplain _ next hmem).1
        · exact h.contiguous hget hkind fun field next hmem => (hplain field next hmem).2

end Lawful

/-- The bytes of an array. -/
theorem Lawful.bytesAt_array (h : Lawful table) (hget : table.get ty = .ok e)
    {elem : TypeId} {len : Word} (hkind : e.kind = .array elem len)
    (hp : arena.inBounds p e.size.toNat = true) :
    arena.bytesAt p e.size.toNat = (List.range' 0 len.toNat).flatMap fun i =>
      arena.bytesAt (p + UInt64.ofNat i * table.sizeOf elem) (table.sizeOf elem).toNat := by
  have hsize := h.size_array hget hkind (Arena.lt_of_inBounds hp)
  rw [hsize] at hp ⊢
  exact Arena.bytesAt_pieces len.toNat hp (Nat.le_of_lt len.toNat_lt)

end TypeTable

/-! ### The walk over plain memory -/

namespace Structural

open TypeTable

variable {table : TypeTable} {arena : Arena} {ty : TypeId} {e : Entry} {p q : Word}

theorem leafEqual_of_memory (hbase : e.base = .memory) :
    leafEqual table arena e ty p q = Primitives.memoryEqual arena p q e.size := by
  rw [leafEqual, hbase]

theorem leafHash_of_memory (hbase : e.base = .memory) (seed : Word) :
    leafHash table arena e ty p seed = Primitives.memoryHash arena p e.size seed := by
  rw [leafHash, hbase]

/-- The walk along a type of plain memory that is filled compares all bytes. -/
theorem equalVia_of_filled (h : Lawful table) (hfilled : table.Filled ty)
    (hbase : table.base ty = .memory) (hp : arena.inBounds p (table.sizeOf ty).toNat = true)
    (hq : arena.inBounds q (table.sizeOf ty).toNat = true)
    (dynamic : TypeId → Word → Word → Except EvalError Bool) :
    equalVia table arena dynamic ty p q =
      .ok (arena.bytesAt p (table.sizeOf ty).toNat ==
        arena.bytesAt q (table.sizeOf ty).toNat) := by
  induction hfilled generalizing p q with
  | leaf hget hkind =>
    rw [base_of_get hget] at hbase
    rw [equalVia_of_isLeaf hget hkind, leafEqual_of_memory hbase, sizeOf_of_get hget]
    rw [sizeOf_of_get hget] at hp hq
    exact Primitives.memoryEqual_eq hp hq rfl
  | @array ty elem e len hget hkind _ ih =>
    rw [base_of_get hget] at hbase
    rw [sizeOf_of_get hget] at hp hq ⊢
    have hlen : ∀ i ∈ List.range' 0 len.toNat, i < len.toNat := by simp
    rw [h.bytesAt_array hget hkind hp, h.bytesAt_array hget hkind hq, flatMap_beq_flatMap ?_,
      equalVia_eq hget, hkind]
    · refine (conj_map_congr fun i hi => ?_).trans (conj_map_ok _ _)
      obtain ⟨hpi, hpi'⟩ := h.elementAddr_eq hget hp hkind (hlen i hi)
      obtain ⟨hqi, hqi'⟩ := h.elementAddr_eq hget hq hkind (hlen i hi)
      have hne : len ≠ 0 := by
        rintro rfl
        exact absurd (hlen i hi) (Nat.not_lt_zero i)
      rw [hpi, hqi]
      exact ih hne (h.base_elem hget hbase hkind hne) hpi' hqi'
    · intro i hi
      rw [Arena.length_bytesAt (h.elementAddr_eq hget hp hkind (hlen i hi)).2,
        Arena.length_bytesAt (h.elementAddr_eq hget hq hkind (hlen i hi)).2]
  | @struct ty e name members hget hkind hcontiguous _ ih =>
    rw [base_of_get hget] at hbase
    rw [sizeOf_of_get hget] at hp hq ⊢
    obtain ⟨hplain, _⟩ := h.memory_struct hget hbase hkind
    rw [hcontiguous.bytesAt_all hp, hcontiguous.bytesAt_all hq, flatMap_beq_flatMap ?_,
      equalVia_eq hget, hkind]
    · refine (conj_map_congr fun field hf => ?_).trans (conj_map_ok _ _)
      obtain ⟨hpf, hpf'⟩ := h.add_field hget hp hf
      obtain ⟨hqf, hqf'⟩ := h.add_field hget hq hf
      obtain ⟨hblank, hmemory⟩ := hplain field hf
      rw [hblank, hpf, hqf]
      exact ih field hf hmemory hpf' hqf'
    · intro field hf
      rw [Arena.length_bytesAt (h.add_field hget hp hf).2,
        Arena.length_bytesAt (h.add_field hget hq hf).2]

/-- The walk along a type of plain memory that is filled hashes all bytes. -/
theorem hashVia_of_filled (h : Lawful table) (hfilled : table.Filled ty)
    (hbase : table.base ty = .memory) (hp : arena.inBounds p (table.sizeOf ty).toNat = true)
    (dynamic : TypeId → Word → Word → Except EvalError Word) (seed : Word) :
    hashVia table arena dynamic ty p seed =
      .ok (blockHash (arena.bytesAt p (table.sizeOf ty).toNat) seed) := by
  induction hfilled generalizing p seed with
  | leaf hget hkind =>
    rw [base_of_get hget] at hbase
    rw [hashVia_of_isLeaf hget hkind, leafHash_of_memory hbase, sizeOf_of_get hget]
    rw [sizeOf_of_get hget] at hp
    exact Primitives.memoryHash_eq hp rfl seed
  | @array ty elem e len hget hkind _ ih =>
    rw [base_of_get hget] at hbase
    rw [sizeOf_of_get hget] at hp ⊢
    have hlen : ∀ i ∈ List.range' 0 len.toNat, i < len.toNat := by simp
    rw [h.bytesAt_array hget hkind hp, blockHash_flatMap, hashVia_eq hget, hkind]
    refine foldlM_eq_foldl (fun seed i hi => ?_) seed
    obtain ⟨hpi, hpi'⟩ := h.elementAddr_eq hget hp hkind (hlen i hi)
    have hne : len ≠ 0 := by
      rintro rfl
      exact absurd (hlen i hi) (Nat.not_lt_zero i)
    rw [hpi]
    exact ih hne (h.base_elem hget hbase hkind hne) hpi' seed
  | @struct ty e name members hget hkind hcontiguous _ ih =>
    rw [base_of_get hget] at hbase
    rw [sizeOf_of_get hget] at hp ⊢
    obtain ⟨hplain, _⟩ := h.memory_struct hget hbase hkind
    rw [hcontiguous.bytesAt_all hp, blockHash_flatMap, hashVia_eq hget, hkind]
    refine foldlM_eq_foldl (fun seed field hf => ?_) seed
    obtain ⟨hpf, hpf'⟩ := h.add_field hget hp hf
    obtain ⟨hblank, hmemory⟩ := hplain field hf
    rw [hblank, hpf]
    exact ih field hf hmemory hpf' seed

end Structural

/-! ### Types that are filled -/

namespace TypeTable

variable {table : TypeTable}

/-- If all opaque memory takes up whole blocks, every type of plain memory is filled. -/
theorem Lawful.filled (h : Lawful table) (hwhole : table.OpaqueWhole) {ty : TypeId}
    (hty : table.Has ty) (hbase : table.base ty = .memory) : table.Filled ty := by
  obtain ⟨e, hget⟩ := hty
  have hbase' := hbase
  rw [base_of_get hget] at hbase'
  cases hkind : e.kind with
  | array elem len =>
    have hlt := part_lt hget (Entry.elem_mem_parts hkind)
    exact .array hget hkind fun hlen =>
      h.filled hwhole (h.elem_has hget hkind) (h.base_elem hget hbase' hkind hlen)
  | struct name members =>
    obtain ⟨hplain, hlone⟩ := h.memory_struct hget hbase' hkind
    refine .struct hget hkind ?_ fun field hf => ?_
    · rcases hlone with ⟨field, hfields⟩ | hcontiguous
      · rw [hfields, Contiguous, Contiguous, h.offset_head hget hfields,
          h.size_lone hwhole hget hfields, Nat.zero_add]
        exact ⟨rfl, rfl⟩
      · exact hcontiguous
    · have hlt := part_lt hget (Entry.field_mem_parts hf)
      exact h.filled hwhole (h.field_has hget hf) (hplain field hf).2
  | any | interface _ =>
    -- The values of interfaces are not plain memory.
    have hlaid := (h.laidOut hget).base
    rw [hkind, hbase'] at hlaid
    cases hlaid
  | _ => exact .leaf hget (by rw [hkind]; rfl)
termination_by ty.raw.toNat
decreasing_by all_goals exact UInt32.lt_iff_toNat_lt.1 hlt

end TypeTable

end HashEq
