import HashEq.Proofs.Machine.Reading

/-!
# The atoms of a type

The leaves of a type take plain memory as one block. Taken apart as well, down to the
types without parts, they are the *atoms* of the type. The walk along a type goes from
one atom to the next, in the order of fields and elements, and comes by no blank
field.

* `TypeTable.atoms`: the atoms of a type;
* `mem_atoms_iff`: they differ from its leaves in plain memory only;
* `fits_of_mem_atoms`: what lies in the arena can be read atom by atom;
* `Structural.equalVia_eq_atoms`, `Structural.hashVia_eq_atoms`: the walk along a type.
-/

namespace HashEq

namespace TypeTable

variable (table : TypeTable)

/-- The atoms of a type, each with its offset. -/
def atoms (ty : TypeId) : List (Word × Leaf) :=
  match _hget : table.get ty with
  | .error _ => []
  | .ok e =>
    -- Plain memory is no case of its own here, as it is for leaves.
    match _hkind : e.kind with
    | .array elem len => (List.range' 0 len.toNat).flatMap fun i =>
        shift (UInt64.ofNat i * table.sizeOf elem) (atoms elem)
    | .struct _ _ => e.fields.attach.flatMap fun ⟨field, _hmem⟩ =>
        if field.isBlank then [] else shift field.offset (atoms field.ty)
    | _ => [(0, leafOf e)]
termination_by ty.raw.toNat
decreasing_by
  · exact UInt32.lt_iff_toNat_lt.1 (part_lt _hget (Entry.elem_mem_parts _hkind))
  · exact UInt32.lt_iff_toNat_lt.1 (part_lt _hget (Entry.field_mem_parts _hmem))

variable {table} {ty : TypeId} {e : Entry}

theorem atoms_missing {f : Fault} (hget : table.get ty = .error f) : table.atoms ty = [] := by
  rw [atoms]
  split
  · rfl
  · next he => rw [hget] at he; cases he

section Step

variable (hget : table.get ty = .ok e)
include hget

theorem atoms_array {elem : TypeId} {len : Word} (hkind : e.kind = .array elem len) :
    table.atoms ty = (List.range' 0 len.toNat).flatMap fun i =>
      shift (UInt64.ofNat i * table.sizeOf elem) (table.atoms elem) := by
  rw [atoms]
  split
  · next hf => rw [hget] at hf; cases hf
  · next he =>
    rw [hget] at he
    cases he
    split
    · next heq =>
      rw [hkind] at heq
      cases heq
      rfl
    · next heq => rw [hkind] at heq; cases heq
    · next hne _ => exact absurd hkind (hne elem len)

theorem atoms_struct {name : Option String} {members : List Member}
    (hkind : e.kind = .struct name members) :
    table.atoms ty = e.fields.flatMap fun field =>
      if field.isBlank then [] else shift field.offset (table.atoms field.ty) := by
  rw [atoms]
  split
  · next hf => rw [hget] at hf; cases hf
  · next he =>
    rw [hget] at he
    cases he
    split
    · next heq => rw [hkind] at heq; cases heq
    · rw [← List.flatMap_map (f := Subtype.val)
        (g := fun field : Field => if field.isBlank then [] else
          shift field.offset (table.atoms field.ty)), List.attach_map_subtype_val]
    · next hne => exact absurd hkind (hne name members)

theorem atoms_leaf (hkind : e.kind.isLeaf = true ∨ e.kind.isInterface = true) :
    table.atoms ty = [(0, leafOf e)] := by
  rw [atoms]
  split
  · next hf => rw [hget] at hf; cases hf
  · next he =>
    rw [hget] at he
    cases he
    split
    · next heq => simp [heq, Kind.isLeaf, Kind.isInterface] at hkind
    · next heq => simp [heq, Kind.isLeaf, Kind.isInterface] at hkind
    · rfl

end Step

/-! ### Atoms and leaves -/

/-- Plain memory is put together from blocks. -/
theorem block_of_mem_atoms {ty : TypeId} {offset : Word} {leaf : Leaf} (h : Lawful table)
    (hbase : table.base ty = .memory) (hmem : (offset, leaf) ∈ table.atoms ty) :
    ∃ size, leaf = .block size := by
  induction ty using byParts table generalizing offset with
  | missing ty f hget =>
    rw [atoms_missing hget] at hmem
    cases hmem
  | leaf ty e hget hkind =>
    rw [atoms_leaf hget hkind, List.mem_singleton, Prod.mk.injEq] at hmem
    rw [base_of_get hget] at hbase
    exact ⟨e.size, by rw [hmem.2, leafOf, hbase]⟩
  | array ty e elem len hget hkind ih =>
    rw [atoms_array hget hkind, mem_elements] at hmem
    rw [base_of_get hget] at hbase
    obtain ⟨i, hi, inner, hinner, _⟩ := hmem
    have hne : len ≠ 0 := by
      rintro rfl
      exact absurd hi (Nat.not_lt_zero i)
    exact ih (h.base_elem hget hbase hkind hne) hinner
  | struct ty e name members hget hkind ih =>
    rw [atoms_struct hget hkind, mem_fields] at hmem
    rw [base_of_get hget] at hbase
    obtain ⟨field, hf, _, inner, hinner, _⟩ := hmem
    exact ih field hf ((h.memory_struct hget hbase hkind).1 field hf).2 hinner

/-- The atoms of a type are its leaves, unless they are plain memory. -/
theorem mem_atoms_iff {ty : TypeId} {offset : Word} {leaf : Leaf} (h : Lawful table)
    (hleaf : ∀ size, leaf ≠ .block size) :
    (offset, leaf) ∈ table.atoms ty ↔ (offset, leaf) ∈ table.leaves ty := by
  -- Plain memory is put together from blocks, whichever way it is looked at.
  have hmemory : ∀ {ty e offset}, table.get ty = .ok e → e.base = .memory →
      ((offset, leaf) ∈ table.atoms ty ↔ (offset, leaf) ∈ table.leaves ty) := by
    intro ty e offset hget hbase
    refine iff_of_false (fun hmem => ?_) fun hmem => ?_
    · obtain ⟨size, hblock⟩ := block_of_mem_atoms h ((base_of_get hget).trans hbase) hmem
      exact hleaf size hblock
    · rw [leaves_memory hget hbase, List.mem_singleton, Prod.mk.injEq] at hmem
      exact hleaf e.size hmem.2
  induction ty using byParts table generalizing offset with
  | missing ty f hget => rw [atoms_missing hget, leaves_missing hget]
  | leaf ty e hget hkind =>
    by_cases hbase : e.base = .memory
    · exact hmemory hget hbase
    · rw [atoms_leaf hget hkind, leaves_leaf hget hbase hkind]
  | array ty e elem len hget hkind ih =>
    by_cases hbase : e.base = .memory
    · exact hmemory hget hbase
    · rw [atoms_array hget hkind, leaves_array hget hbase hkind, mem_elements, mem_elements]
      simp only [ih]
  | struct ty e name members hget hkind ih =>
    by_cases hbase : e.base = .memory
    · exact hmemory hget hbase
    · rw [atoms_struct hget hkind, leaves_struct hget hbase hkind, mem_fields, mem_fields]
      refine exists_congr fun field => and_congr_right fun hf => ?_
      simp only [ih field hf]

/-- What all blocks have, all atoms have if all leaves do, and the other way round. -/
theorem forall_mem_atoms_iff (ty : TypeId) (h : Lawful table) {motive : Word → Leaf → Prop}
    (hblock : ∀ offset size, motive offset (.block size)) :
    (∀ offset leaf, (offset, leaf) ∈ table.atoms ty → motive offset leaf) ↔
      ∀ offset leaf, (offset, leaf) ∈ table.leaves ty → motive offset leaf := by
  refine forall_congr' fun offset => forall_congr' fun leaf => ?_
  by_cases hleaf : ∃ size, leaf = .block size
  · obtain ⟨size, rfl⟩ := hleaf
    exact iff_of_true (fun _ => hblock offset size) fun _ => hblock offset size
  · rw [mem_atoms_iff h fun size heq => hleaf ⟨size, heq⟩]

/-- What lies in the arena can be read atom by atom. -/
theorem fits_of_mem_atoms {arena : Arena} {ty : TypeId} {p offset : Word} {leaf : Leaf}
    (h : Lawful table) (hp : arena.inBounds p (table.sizeOf ty).toNat = true)
    (hmem : (offset, leaf) ∈ table.atoms ty) : leaf.Fits table arena (p + offset) := by
  induction ty using byParts table generalizing p offset with
  | missing ty f hget =>
    rw [atoms_missing hget] at hmem
    cases hmem
  | leaf ty e hget hkind =>
    rw [atoms_leaf hget hkind, List.mem_singleton, Prod.mk.injEq] at hmem
    rw [sizeOf_of_get hget] at hp
    rw [hmem.1, hmem.2, UInt64.add_zero]
    exact fits_leafOf h hget hkind hp
  | array ty e elem len hget hkind ih =>
    rw [atoms_array hget hkind, mem_elements] at hmem
    rw [sizeOf_of_get hget] at hp
    obtain ⟨i, hi, inner, hinner, rfl⟩ := hmem
    rw [← UInt64.add_assoc]
    exact ih (h.elementAddr_eq hget hp hkind hi).2 hinner
  | struct ty e name members hget hkind ih =>
    rw [atoms_struct hget hkind, mem_fields] at hmem
    rw [sizeOf_of_get hget] at hp
    obtain ⟨field, hf, _, inner, hinner, rfl⟩ := hmem
    rw [← UInt64.add_assoc]
    exact ih field hf (h.add_field hget hp hf).2 hinner

end TypeTable

/-! ### The walk along a type -/

namespace Structural

open TypeTable

variable {table : TypeTable} {arena : Arena} {ty : TypeId} {e : Entry} {p q seed : Word}

/-- The walk along a type compares atom by atom. -/
theorem equalVia_eq_atoms {ty : TypeId} {p q : Word} (h : Lawful table) (hty : table.Has ty)
    (hne : table.base ty ≠ .noEquality)
    (hp : arena.inBounds p (table.sizeOf ty).toNat = true)
    (hq : arena.inBounds q (table.sizeOf ty).toNat = true)
    (dynamic : TypeId → Word → Word → Except EvalError Bool) :
    equalVia table arena dynamic ty p q = conj ((table.atoms ty).map fun leaf =>
      leaf.2.equal table arena dynamic (p + leaf.1) (q + leaf.1)) := by
  induction ty using byParts table generalizing p q with
  | missing ty f hget =>
    obtain ⟨e, hget'⟩ := hty
    rw [hget] at hget'
    cases hget'
  | leaf ty e hget hkind =>
    rw [base_of_get hget] at hne
    rw [equalVia_leafOf h hget hkind hne, atoms_leaf hget hkind, List.map_singleton, conj_singleton,
      UInt64.add_zero, UInt64.add_zero]
  | array ty e elem len hget hkind ih =>
    rw [base_of_get hget] at hne
    rw [sizeOf_of_get hget] at hp hq
    obtain ⟨hhas, hne'⟩ := h.base_part_ne hget hne (Entry.elem_mem_parts hkind)
    rw [equalVia_eq hget, hkind, atoms_array hget hkind, List.map_flatMap, conj_flatMap]
    -- No address overflows, so the walk comes to the atoms of the elements where they are.
    refine conj_map_congr fun i hi => ?_
    have hi' : i < len.toNat := by simpa using hi
    obtain ⟨hpi, hpi'⟩ := h.elementAddr_eq hget hp hkind hi'
    obtain ⟨hqi, hqi'⟩ := h.elementAddr_eq hget hq hkind hi'
    rw [hpi, hqi, Leaves.equalVia_shift]
    exact ih hhas hne' hpi' hqi'
  | struct ty e name members hget hkind ih =>
    rw [base_of_get hget] at hne
    rw [sizeOf_of_get hget] at hp hq
    rw [equalVia_eq hget, hkind, atoms_struct hget hkind, List.map_flatMap, conj_flatMap]
    refine conj_map_congr fun field hf => ?_
    obtain ⟨hhas, hne'⟩ := h.base_part_ne hget hne (Entry.field_mem_parts hf)
    obtain ⟨hpf, hpf'⟩ := h.add_field hget hp hf
    obtain ⟨hqf, hqf'⟩ := h.add_field hget hq hf
    rw [hpf, hqf]
    split
    · rfl
    · rw [Leaves.equalVia_shift]
      exact ih field hf hhas hne' hpf' hqf'

/-- The walk along a type hashes atom by atom. -/
theorem hashVia_eq_atoms {ty : TypeId} {p seed : Word} (h : Lawful table) (hty : table.Has ty)
    (hne : table.base ty ≠ .noEquality)
    (hp : arena.inBounds p (table.sizeOf ty).toNat = true)
    (dynamic : TypeId → Word → Word → Except EvalError Word) :
    hashVia table arena dynamic ty p seed = (table.atoms ty).foldlM (fun state leaf =>
      leaf.2.hash table arena dynamic (p + leaf.1) state) seed := by
  induction ty using byParts table generalizing p seed with
  | missing ty f hget =>
    obtain ⟨e, hget'⟩ := hty
    rw [hget] at hget'
    cases hget'
  | leaf ty e hget hkind =>
    rw [base_of_get hget] at hne
    rw [hashVia_leafOf h hget hkind hne, atoms_leaf hget hkind, List.foldlM_cons, UInt64.add_zero]
    exact (bind_pure _).symm
  | array ty e elem len hget hkind ih =>
    rw [base_of_get hget] at hne
    rw [sizeOf_of_get hget] at hp
    obtain ⟨hhas, hne'⟩ := h.base_part_ne hget hne (Entry.elem_mem_parts hkind)
    rw [hashVia_eq hget, hkind, atoms_array hget hkind, foldlM_flatMap]
    refine foldlM_congr (fun state i hi => ?_) seed
    have hi' : i < len.toNat := by simpa using hi
    obtain ⟨hpi, hpi'⟩ := h.elementAddr_eq hget hp hkind hi'
    rw [hpi, Leaves.hashVia_shift]
    exact ih hhas hne' hpi'
  | struct ty e name members hget hkind ih =>
    rw [base_of_get hget] at hne
    rw [sizeOf_of_get hget] at hp
    rw [hashVia_eq hget, hkind, atoms_struct hget hkind, foldlM_flatMap]
    refine foldlM_congr (fun state field hf => ?_) seed
    obtain ⟨hhas, hne'⟩ := h.base_part_ne hget hne (Entry.field_mem_parts hf)
    obtain ⟨hpf, hpf'⟩ := h.add_field hget hp hf
    rw [hpf]
    split
    · rfl
    · rw [Leaves.hashVia_shift]
      exact ih field hf hhas hne' hpf'

end Structural

end HashEq
