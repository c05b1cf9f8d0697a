import HashEq.Proofs.Machine.PlainMemory

/-!
# Which plain memory is walked byte by byte

The walk along a type of plain memory comes by all bytes of a value exactly when
the type is filled. A lone field can be shorter than its struct, and then the bytes
behind it count for the type's algorithm, but not for the walk.

* `exists_unseen`: a type that is not filled has a byte that the walk never sees;
* `hashVia_congr`: bytes that are not seen do not matter;
* `bytewise_iff_filled`: the walk and the comparison of a block of bytes come to the
  same exactly for the types that are filled, or too large for any memory.
-/

namespace HashEq

namespace TypeTable

/-- The walk along a type comes by byte `d` of a value. -/
inductive Seen (table : TypeTable) : TypeId → Nat → Prop
  | leaf {ty : TypeId} {e : Entry} {d : Nat} : table.get ty = .ok e → e.kind.isLeaf = true →
      d < e.size.toNat → Seen table ty d
  | elem {ty elem : TypeId} {e : Entry} {len : Word} {i d : Nat} : table.get ty = .ok e →
      e.kind = .array elem len → i < len.toNat → Seen table elem d →
      Seen table ty (i * (table.sizeOf elem).toNat + d)
  | field {ty : TypeId} {e : Entry} {field : Field} {d : Nat} : table.get ty = .ok e →
      field ∈ e.fields → Seen table field.ty d → Seen table ty (field.offset.toNat + d)

namespace Lawful

variable {table : TypeTable} {ty : TypeId} {e : Entry}

/-- The elements of an array are not larger than the array. -/
theorem size_elem_le (h : Lawful table) (hget : table.get ty = .ok e) {elem : TypeId} {len : Word}
    (hkind : e.kind = .array elem len) (hsize : e.size.toNat < UInt64.size - 1)
    (hlen : 0 < len.toNat) : (table.sizeOf elem).toNat ≤ e.size.toNat := by
  have hend := h.elem_end_le hget hkind hsize hlen
  omega

/-- The walk along a type stays within its values. -/
theorem lt_of_seen (h : Lawful table) {d : Nat} (hseen : table.Seen ty d)
    (hsize : (table.sizeOf ty).toNat < UInt64.size - 1) : d < (table.sizeOf ty).toNat := by
  induction hseen with
  | leaf hget _ hd => rwa [sizeOf_of_get hget]
  | elem hget hkind hi _ ih =>
    rw [sizeOf_of_get hget] at hsize ⊢
    have hend := h.elem_end_le hget hkind hsize hi
    have hd := ih (by omega)
    omega
  | field hget hf _ ih =>
    rw [sizeOf_of_get hget] at hsize ⊢
    have hend := h.field_end_le hget hf
    have hd := ih (by omega)
    omega

theorem seen_array (h : Lawful table) (hget : table.get ty = .ok e) {elem : TypeId} {len : Word}
    (hkind : e.kind = .array elem len) {d : Nat} (hseen : table.Seen ty d) :
    ∃ i d', table.Seen elem d' ∧ d = i * (table.sizeOf elem).toNat + d' := by
  cases hseen with
  | leaf hget' hleaf _ =>
    cases hget.symm.trans hget'
    rw [hkind] at hleaf
    cases hleaf
  | elem hget' hkind' _ hseen =>
    cases hget.symm.trans hget'
    cases hkind.symm.trans hkind'
    exact ⟨_, _, hseen, rfl⟩
  | field hget' hf _ =>
    cases hget.symm.trans hget'
    obtain ⟨_, _, hstruct⟩ := h.isStruct_of_mem hget hf
    cases hkind.symm.trans hstruct

theorem seen_struct (hget : table.get ty = .ok e) {name : Option String} {members : List Member}
    (hkind : e.kind = .struct name members) {d : Nat} (hseen : table.Seen ty d) :
    ∃ field ∈ e.fields, ∃ d', table.Seen field.ty d' ∧ d = field.offset.toNat + d' := by
  cases hseen with
  | leaf hget' hleaf _ =>
    cases hget.symm.trans hget'
    rw [hkind] at hleaf
    cases hleaf
  | elem hget' hkind' _ _ =>
    cases hget.symm.trans hget'
    cases hkind.symm.trans hkind'
  | field hget' hf hseen =>
    cases hget.symm.trans hget'
    exact ⟨_, hf, _, hseen, rfl⟩

/-- A type of plain memory that is not filled has a byte that the walk does not come by. -/
theorem exists_unseen {ty : TypeId} (h : Lawful table) (hty : table.Has ty)
    (hbase : table.base ty = .memory) (hsize : (table.sizeOf ty).toNat < UInt64.size - 1)
    (hnot : ¬table.Filled ty) : ∃ d < (table.sizeOf ty).toNat, ¬table.Seen ty d := by
  obtain ⟨e, hget⟩ := hty
  rw [base_of_get hget] at hbase
  rw [sizeOf_of_get hget] at hsize ⊢
  cases hkind : e.kind with
  | array elem len =>
    have hne : len ≠ 0 := fun hlen => hnot (.array hget hkind fun hne => absurd hlen hne)
    have hpos : 0 < len.toNat := Nat.pos_of_ne_zero fun hzero => hne (UInt64.toNat_inj.1 hzero)
    have hle := h.size_elem_le hget hkind hsize hpos
    have hlt := part_lt hget (Entry.elem_mem_parts hkind)
    obtain ⟨d, hd, hunseen⟩ := h.exists_unseen (h.elem_has hget hkind)
      (h.base_elem hget hbase hkind hne) (by omega)
      fun hfilled => hnot (.array hget hkind fun _ => hfilled)
    -- The first element has a byte that the walk does not come by, and so has the array.
    refine ⟨d, by omega, fun hseen => ?_⟩
    obtain ⟨i, d', hseen', heq⟩ := h.seen_array hget hkind hseen
    have hd' := h.lt_of_seen hseen' (by omega)
    cases i with
    | zero =>
      rw [Nat.zero_mul, Nat.zero_add] at heq
      exact hunseen (heq ▸ hseen')
    | succ i =>
      rw [Nat.succ_mul] at heq
      omega
  | struct name members =>
    obtain ⟨hplain, hlone⟩ := h.memory_struct hget hbase hkind
    have hends : ∀ field ∈ e.fields,
        field.offset.toNat + (table.sizeOf field.ty).toNat ≤ e.size.toNat :=
      fun _ hf => h.field_end_le hget hf
    by_cases hfields : ∀ field ∈ e.fields, table.Filled field.ty
    · -- The fields do not fill the struct, so there is one only, and it is too short.
      obtain ⟨field, hfield⟩ := hlone.resolve_right fun hcontiguous =>
        hnot (.struct hget hkind hcontiguous hfields)
      have hmem : field ∈ e.fields := hfield ▸ List.mem_singleton_self _
      have hoffset := h.offset_head hget hfield
      have hend := hends field hmem
      have hshort : (table.sizeOf field.ty).toNat ≠ e.size.toNat := by
        intro heq
        refine hnot (.struct hget hkind ?_ hfields)
        rw [hfield, Contiguous, Contiguous, hoffset, heq, Nat.zero_add]
        exact ⟨rfl, rfl⟩
      refine ⟨(table.sizeOf field.ty).toNat, by omega, fun hseen => ?_⟩
      obtain ⟨other, hother, d', hseen', heq⟩ := seen_struct hget hkind hseen
      rw [hfield, List.mem_singleton] at hother
      subst hother
      have hd' := h.lt_of_seen hseen' (by omega)
      omega
    · -- A field has a byte that the walk does not come by, and no other field has this byte.
      simp only [Classical.not_forall] at hfields
      obtain ⟨field, hf, hfield⟩ := hfields
      have hend := hends field hf
      have hlt := part_lt hget (Entry.field_mem_parts hf)
      obtain ⟨d, hd, hunseen⟩ := h.exists_unseen (h.field_has hget hf) (hplain field hf).2
        (by omega) hfield
      refine ⟨field.offset.toNat + d, by omega, fun hseen => ?_⟩
      obtain ⟨other, hother, d', hseen', heq⟩ := seen_struct hget hkind hseen
      have hd' := h.lt_of_seen hseen' (by have := hends other hother; omega)
      cases h.eq_of_overlap hget hf hother (d := field.offset.toNat + d) (by omega) (by omega)
      have hsame : d = d' := by omega
      exact hunseen (hsame ▸ hseen')
  | any | interface _ =>
    have hlaid := (h.laidOut hget).base
    rw [hkind, hbase] at hlaid
    cases hlaid
  | _ => exact absurd (.leaf hget (by rw [hkind]; rfl)) hnot
termination_by ty.raw.toNat
decreasing_by all_goals exact UInt32.lt_iff_toNat_lt.1 hlt

end Lawful

end TypeTable

namespace Structural

open TypeTable

variable {table : TypeTable} {arena other : Arena} {ty : TypeId} {p : Word}

/-- The walk along a type of plain memory depends on nothing but the bytes that it comes by. -/
theorem hashVia_congr {ty : TypeId} {p : Word} (h : Lawful table) (hty : table.Has ty)
    (hbase : table.base ty = .memory) (hp : arena.inBounds p (table.sizeOf ty).toNat = true)
    (hp' : other.inBounds p (table.sizeOf ty).toNat = true) (hstart : Arena.base ≤ p.toNat)
    (hsame : ∀ d, table.Seen ty d →
      arena.bytes[p.toNat - Arena.base + d]? = other.bytes[p.toNat - Arena.base + d]?)
    (dynamic dynamic' : TypeId → Word → Word → Except EvalError Word) (seed : Word) :
    hashVia table arena dynamic ty p seed = hashVia table other dynamic' ty p seed := by
  obtain ⟨e, hget⟩ := hty
  rw [base_of_get hget] at hbase
  rw [sizeOf_of_get hget] at hp hp'
  -- Where a part starts, the bytes that the walk comes by are the same too.
  have hpart : ∀ {offset : Word} {part : TypeId}, offset.toNat ≤ e.size.toNat →
      (∀ d, table.Seen part d → table.Seen ty (offset.toNat + d)) →
      Arena.base ≤ (p + offset).toNat ∧ ∀ d, table.Seen part d →
        arena.bytes[(p + offset).toNat - Arena.base + d]? =
          other.bytes[(p + offset).toNat - Arena.base + d]? := by
    intro offset part hle hseen
    have hadd := Arena.toNat_add hp hle
    refine ⟨by omega, fun d hd => ?_⟩
    rw [hadd, Nat.sub_add_comm hstart, Nat.add_assoc]
    exact hsame _ (hseen d hd)
  rw [hashVia_eq hget, hashVia_eq hget]
  cases hkind : e.kind with
  | array elem len =>
    have hlt := part_lt hget (Entry.elem_mem_parts hkind)
    refine foldlM_congr (fun seed i hi => ?_) seed
    have hi' : i < len.toNat := by simpa using hi
    have hne : len ≠ 0 := by
      rintro rfl
      exact absurd hi' (Nat.not_lt_zero i)
    obtain ⟨haddr, hbounds⟩ := h.elementAddr_eq hget hp hkind hi'
    have hbounds' := (h.elementAddr_eq hget hp' hkind hi').2
    have hoffset := h.toNat_elementOffset hget hp hkind hi'
    have hend := h.elem_end_le hget hkind (Arena.lt_of_inBounds hp) hi'
    obtain ⟨hstart', hsame'⟩ := @hpart _ elem (by rw [hoffset]; omega) fun d hd => by
      rw [hoffset]
      exact .elem hget hkind hi' hd
    rw [haddr]
    exact hashVia_congr h (h.elem_has hget hkind) (h.base_elem hget hbase hkind hne) hbounds
      hbounds' hstart' hsame' dynamic dynamic' seed
  | struct name members =>
    refine foldlM_congr (fun seed field hf => ?_) seed
    have hlt := part_lt hget (Entry.field_mem_parts hf)
    obtain ⟨hblank, hmemory⟩ := (h.memory_struct hget hbase hkind).1 field hf
    obtain ⟨haddr, hbounds⟩ := h.add_field hget hp hf
    have hbounds' := (h.add_field hget hp' hf).2
    have hend := h.field_end_le hget hf
    obtain ⟨hstart', hsame'⟩ := @hpart _ field.ty (by omega) fun d hd => .field hget hf hd
    rw [hblank, haddr]
    exact hashVia_congr h (h.field_has hget hf) hmemory hbounds hbounds' hstart' hsame' dynamic
      dynamic' seed
  | any | interface _ =>
    have hlaid := (h.laidOut hget).base
    rw [hkind, hbase] at hlaid
    cases hlaid
  | _ =>
    rw [leafHash_of_memory hbase, leafHash_of_memory hbase, Primitives.memoryHash_eq hp rfl,
      Primitives.memoryHash_eq hp' rfl, Arena.bytesAt_congr fun d hd => ?_]
    exact hsame d (.leaf hget (by rw [hkind]; rfl) hd)
termination_by ty.raw.toNat
decreasing_by all_goals exact UInt32.lt_iff_toNat_lt.1 hlt

/-! ### The whole walk -/

theorem equal_of_filled (h : Lawful table) (hfilled : table.Filled ty)
    (hbase : table.base ty = .memory) {q : Word}
    (hp : arena.inBounds p (table.sizeOf ty).toNat = true)
    (hq : arena.inBounds q (table.sizeOf ty).toNat = true) :
    equal table arena ty p q = Primitives.memoryEqual arena p q (table.sizeOf ty) := by
  rw [equal, equalWithin_of_pos callLimit_pos, equalVia_of_filled h hfilled hbase hp hq,
    Primitives.memoryEqual_eq hp hq rfl]

theorem hash_of_filled (h : Lawful table) (hfilled : table.Filled ty)
    (hbase : table.base ty = .memory) (hp : arena.inBounds p (table.sizeOf ty).toNat = true)
    (seed : Word) :
    hash table arena ty p seed = Primitives.memoryHash arena p (table.sizeOf ty) seed := by
  rw [hash, hashWithin_of_pos callLimit_pos, hashVia_of_filled h hfilled hbase hp,
    Primitives.memoryHash_eq hp rfl]

/-- An arena of `n` bytes that are zero, but for byte `d`. -/
def marked (n d : Nat) (mark : UInt8) (h : Arena.base + n < UInt64.size) : Arena where
  bytes := (Array.replicate n 0).setIfInBounds d mark
  addressable := by rwa [Array.size_setIfInBounds, Array.size_replicate]

section Marked

variable {n d : Nat} {mark : UInt8} {h : Arena.base + n < UInt64.size}

theorem toNat_base : (UInt64.ofNat Arena.base).toNat = Arena.base := by decide

theorem inBounds_marked : (marked n d mark h).inBounds (UInt64.ofNat Arena.base) n = true := by
  rw [Arena.inBounds_iff, toNat_base, Arena.size, marked, Array.size_setIfInBounds,
    Array.size_replicate]
  exact .inr ⟨Nat.le_refl _, Nat.le_refl _⟩

theorem bytesAt_marked (hd : d < n) :
    (marked n d mark h).bytesAt (UInt64.ofNat Arena.base) n =
      List.replicate d 0 ++ mark :: List.replicate (n - (d + 1)) 0 := by
  have hbytes : (marked n d mark h).bytesAt (UInt64.ofNat Arena.base) n =
      (List.replicate n 0).set d mark := by
    refine List.ext_getElem? fun i => ?_
    rw [Arena.getElem?_bytesAt, toNat_base, Nat.sub_self, Nat.zero_add, marked,
      ← Array.getElem?_toList, Array.toList_setIfInBounds, Array.toList_replicate]
    split
    · rfl
    · next hi => rw [List.getElem?_eq_none (by rw [List.length_set, List.length_replicate]; omega)]
  rw [hbytes, List.set_eq_take_append_cons_drop, List.length_replicate, if_pos hd,
    List.take_replicate, List.drop_replicate, Nat.min_eq_left (Nat.le_of_lt hd)]

theorem getElem?_marked {other : UInt8} {i : Nat} (hi : d ≠ i) :
    (marked n d mark h).bytes[i]? = (marked n d other h).bytes[i]? := by
  rw [marked, marked, Array.getElem?_setIfInBounds_ne hi, Array.getElem?_setIfInBounds_ne hi]

end Marked

/-- The walk along a type of plain memory is the comparison and the hash of a block of bytes
    exactly if the type is filled, or too large for any memory. -/
theorem bytewise_iff_filled (h : Built table) (hty : table.Has ty)
    (hmemory : table.isMemory ty = true) :
    (∀ (arena : Arena) (p q seed : Word),
      arena.inBounds p (table.sizeOf ty).toNat = true →
      arena.inBounds q (table.sizeOf ty).toNat = true →
      equal table arena ty p q = Primitives.memoryEqual arena p q (table.sizeOf ty) ∧
        hash table arena ty p seed = Primitives.memoryHash arena p (table.sizeOf ty) seed) ↔
    table.Filled ty ∨ UInt64.size ≤ Arena.base + (table.sizeOf ty).toNat := by
  have hbase : table.base ty = .memory := eq_of_beq hmemory
  constructor
  · intro hall
    refine Classical.byContradiction fun hnot => ?_
    rw [not_or, Nat.not_le] at hnot
    obtain ⟨hnot, hsize⟩ := hnot
    have hstart : 1 ≤ Arena.base := by decide
    obtain ⟨d, hd, hunseen⟩ := h.lawful.exists_unseen hty hbase (by omega) hnot
    -- Two arenas that differ in this byte only have different hashes, but not along the type.
    have hwalk : ∀ mark, hash table (marked _ d mark hsize) ty (UInt64.ofNat Arena.base) 0 =
        hash table (marked _ d 0 hsize) ty (UInt64.ofNat Arena.base) 0 := by
      intro mark
      rw [hash, hash, hashWithin_of_pos callLimit_pos, hashWithin_of_pos callLimit_pos]
      refine hashVia_congr h.lawful hty hbase inBounds_marked inBounds_marked
        (Nat.le_of_eq toNat_base.symm) (fun i hi => getElem?_marked ?_) _ _ 0
      rw [toNat_base, Nat.sub_self, Nat.zero_add]
      rintro rfl
      exact hunseen hi
    have hblock : ∀ mark, hash table (marked _ d mark hsize) ty (UInt64.ofNat Arena.base) 0 =
        .ok (blockHash (List.replicate d 0 ++ mark ::
          List.replicate ((table.sizeOf ty).toNat - (d + 1)) 0) 0) := by
      intro mark
      rw [(hall _ _ _ 0 inBounds_marked inBounds_marked).2,
        Primitives.memoryHash_eq inBounds_marked rfl, bytesAt_marked hd]
    have heq := (hblock 1).symm.trans ((hwalk 1).trans (hblock 0))
    exact blockHash_ne (by decide) 0 (Except.ok.inj heq)
  · rintro (hfilled | hlarge) arena p q seed hp hq
    · exact ⟨equal_of_filled h.lawful hfilled hbase hp hq,
        hash_of_filled h.lawful hfilled hbase hp seed⟩
    · -- No arena holds a value.
      have haddressable := arena.addressable
      have hstart : Arena.base < UInt64.size := by decide
      rcases Arena.inBounds_iff.1 hp with hzero | ⟨_, hfits⟩
      · omega
      · unfold Arena.size at hfits
        omega

/-- A table with opaque memory of three bytes that is aligned to four, and with a struct around it. -/
def paddedTable : TypeTable :=
  ofKinds .amd64 [.opaqueMemory 3 4, .struct none [⟨some "data", ⟨32⟩⟩]]

theorem not_filled_padded : ¬paddedTable.Filled ⟨33⟩ := by
  have hkind : paddedTable.kind ⟨33⟩ = .struct none [⟨some "data", ⟨32⟩⟩] := by decide +kernel
  have hfields : paddedTable.fields ⟨33⟩ = [⟨⟨some "data", ⟨32⟩⟩, 0⟩] := by decide +kernel
  have hsize : (paddedTable.sizeOf ⟨33⟩).toNat = 4 := by decide +kernel
  have hsize' : (paddedTable.sizeOf ⟨32⟩).toNat = 3 := by decide +kernel
  intro hfilled
  cases hfilled with
  | leaf hget hleaf =>
    rw [← kind_of_get hget, hkind] at hleaf
    cases hleaf
  | array hget hkind' =>
    rw [← kind_of_get hget, hkind] at hkind'
    cases hkind'
  | struct hget _ hcontiguous _ =>
    rw [← fields_of_get hget, ← sizeOf_of_get hget, hfields, hsize] at hcontiguous
    simp [Contiguous, hsize'] at hcontiguous

/-- The struct counts as plain memory of four bytes, but the walk along it sees three of them. -/
theorem bytewise_iff_filled_padded : paddedTable.isMemory ⟨33⟩ = true ∧
    ¬∀ (arena : Arena) (p q seed : Word),
      arena.inBounds p (paddedTable.sizeOf ⟨33⟩).toNat = true →
      arena.inBounds q (paddedTable.sizeOf ⟨33⟩).toNat = true →
      equal paddedTable arena ⟨33⟩ p q =
          Primitives.memoryEqual arena p q (paddedTable.sizeOf ⟨33⟩) ∧
        hash paddedTable arena ⟨33⟩ p seed =
          Primitives.memoryHash arena p (paddedTable.sizeOf ⟨33⟩) seed := by
  have hmemory : paddedTable.isMemory ⟨33⟩ = true := by decide +kernel
  have hsmall : ¬UInt64.size ≤ Arena.base + (paddedTable.sizeOf ⟨33⟩).toNat := by decide +kernel
  have hbuilt : Built paddedTable := built_ofKinds (by decide +kernel)
  refine ⟨hmemory, fun hall => ?_⟩
  rcases (bytewise_iff_filled hbuilt (by decide +kernel) hmemory).1 hall with hfilled | hlarge
  · exact not_filled_padded hfilled
  · exact hsmall hlarge

end Structural

end HashEq
