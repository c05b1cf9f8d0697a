import HashEq.Proofs.TypeTable.Built

/-!
# Where parts lie

The fields of a struct lie one after the other within the struct, and so do the
elements of an array within an array that memory can hold. When no byte is
unused the fields fill the struct.

* `LaidOut.placed`, `LaidOut.field_end_le`: the fields of a struct;
* `Lawful.contiguous`: the fields of a struct without padding;
* `Lawful.size_array`: the size of an array that is not too large for any memory;
* `Lawful.size_lone`: a lone field takes up the whole struct, if all opaque memory
  takes up whole blocks of its alignment.
-/

namespace HashEq

theorem Word.toNat_saturatingMul (a b : Word) :
    (Word.saturatingMul a b).toNat = min (a.toNat * b.toNat) (UInt64.size - 1) :=
  UInt64.toNat_ofNat_of_lt' (Nat.lt_of_le_of_lt (Nat.min_le_right _ _) (by decide))

theorem roundUpTo_of_dvd {align n : Nat} (h : align ∣ n) : roundUpTo align n = n := by
  refine Nat.le_antisymm (roundUpTo_le ?_ (Nat.le_refl n)) (le_roundUpTo align n)
  rcases Nat.eq_zero_or_pos align with rfl | hpos
  · exact Nat.one_dvd n
  · rwa [Nat.max_eq_left hpos]

namespace TypeTable

/-- Fields lie one after the other from `start` on, and the last one ends at `stop`. -/
def Placed (table : TypeTable) : Nat → List Field → Nat → Prop
  | start, [], stop => start = stop
  | start, field :: fields, stop =>
    start ≤ field.offset.toNat ∧
      Placed table (field.offset.toNat + (table.sizeOf field.ty).toNat) fields stop

/-- Fields fill the bytes from `start` to `stop`. -/
def Contiguous (table : TypeTable) : Nat → List Field → Nat → Prop
  | start, [], stop => start = stop
  | start, field :: fields, stop =>
    field.offset.toNat = start ∧
      Contiguous table (start + (table.sizeOf field.ty).toNat) fields stop

/-- Opaque memory takes up whole blocks of its alignment. -/
def OpaqueWhole (table : TypeTable) : Prop :=
  ∀ {ty : TypeId} {size align : Word}, table.Has ty →
    table.kind ty = .opaqueMemory size align → align.toNat ∣ size.toNat

variable {table : TypeTable} {ty : TypeId} {e : Entry} {fields : List Field} {start stop : Nat}

/-! ### Fields in order -/

theorem placed_of_placeMembers {members : List Member} {start stop : Word}
    (h : table.placeMembers start members = .ok (fields, stop)) :
    Placed table start.toNat fields stop.toNat := by
  induction members generalizing start fields with
  | nil =>
    cases h
    rfl
  | cons member members ih =>
    obtain ⟨e, he, h⟩ := bind_eq_ok_iff.1 h
    obtain ⟨offset, hoffset, h⟩ := bind_eq_ok_iff.1 h
    obtain ⟨next, hnext, h⟩ := bind_eq_ok_iff.1 h
    obtain ⟨⟨rest, last⟩, hrest, h⟩ := bind_eq_ok_iff.1 h
    cases h
    refine ⟨?_, ?_⟩
    · rw [Word.toNat_of_roundUp hoffset]
      exact le_roundUpTo _ _
    · have hend := ih hrest
      rwa [Word.toNat_of_add hnext, ← entry_of_get he] at hend

theorem Placed.le (h : Placed table start fields stop) : start ≤ stop := by
  induction fields generalizing start with
  | nil => exact Nat.le_of_eq h
  | cons field fields ih =>
    have hrest := ih h.2
    have hstart := h.1
    omega

/-- Every field lies between the start of the first and the end of the last. -/
theorem Placed.bounds (h : Placed table start fields stop) {field : Field} (hf : field ∈ fields) :
    start ≤ field.offset.toNat ∧
      field.offset.toNat + (table.sizeOf field.ty).toNat ≤ stop := by
  induction fields generalizing start with
  | nil => cases hf
  | cons first fields ih =>
    rcases List.mem_cons.1 hf with rfl | hf
    · exact ⟨h.1, h.2.le⟩
    · have hrest := ih h.2 hf
      have hstart := h.1
      omega

/-- Of two fields the earlier one ends before the later one starts. -/
theorem Placed.pairwise (h : Placed table start fields stop) :
    fields.Pairwise fun f g => f.offset.toNat + (table.sizeOf f.ty).toNat ≤ g.offset.toNat := by
  induction fields generalizing start with
  | nil => exact .nil
  | cons field fields ih => exact .cons (fun g hg => (h.2.bounds hg).1) (ih h.2)

/-- Fields with no gap before the next one, or the end, fill the bytes from the first one on. -/
theorem Placed.contiguous {size : Word} {first : Field}
    (h : Placed table start (first :: fields) stop) (hstop : stop ≤ size.toNat)
    (hpadded : ∀ field next, (field, next) ∈ followed size (first :: fields) →
      table.isPadded field next = false) :
    Contiguous table first.offset.toNat (first :: fields) size.toNat := by
  have hlast := size.toNat_lt
  -- The end of a field does not wrap, as it comes before the end of the struct.
  have hend : ∀ {start} {field} {next : Word} {fields}, Placed table start (field :: fields) stop →
      table.isPadded field next = false →
      field.offset.toNat + (table.sizeOf field.ty).toNat = next.toNat := by
    intro start field next fields hplaced hnext
    have hle := hplaced.2.le
    rw [isPadded, bne_eq_false_iff_eq, fieldEnd] at hnext
    rw [← hnext, UInt64.toNat_add, Nat.mod_eq_of_lt (by omega)]
  induction fields generalizing start first with
  | nil => exact ⟨rfl, hend h (hpadded first size (List.mem_singleton_self _))⟩
  | cons next fields ih =>
    have hfirst := hend h (hpadded first next.offset List.mem_cons_self)
    refine ⟨rfl, ?_⟩
    rw [hfirst]
    exact ih h.2 fun field next hmem => hpadded field next (List.mem_cons_of_mem _ hmem)

/-! ### Parts of a type -/

namespace LaidOut

variable (h : table.LaidOut e)
include h

/-- The fields of a struct lie one after the other, and the struct ends at the next multiple of
    its alignment. -/
theorem placed {name : Option String} {members : List Member}
    (hkind : e.kind = .struct name members) :
    ∃ stop, Placed table 0 e.fields stop ∧ e.size.toNat = roundUpTo e.align.toNat stop := by
  have hlayout := h.layout
  rw [hkind] at hlayout
  obtain ⟨stop, hplaced, hsize, _⟩ := layout_struct hlayout
  exact ⟨stop.toNat, placed_of_placeMembers hplaced, Word.toNat_of_roundUp hsize⟩

theorem isStruct_of_mem {field : Field} (hf : field ∈ e.fields) :
    ∃ name members, e.kind = .struct name members := by
  cases hkind : e.kind with
  | struct name members => exact ⟨name, members, rfl⟩
  | _ =>
    have hnil := fields_of_layout h.layout (by simp [hkind])
    rw [hnil] at hf
    cases hf

theorem field_end_le {field : Field} (hf : field ∈ e.fields) :
    field.offset.toNat + (table.sizeOf field.ty).toNat ≤ e.size.toNat := by
  obtain ⟨name, members, hkind⟩ := h.isStruct_of_mem hf
  obtain ⟨stop, hplaced, hsize⟩ := h.placed hkind
  rw [hsize]
  exact Nat.le_trans (hplaced.bounds hf).2 (le_roundUpTo _ _)

end LaidOut

namespace Lawful

variable (h : Lawful table) (hget : table.get ty = .ok e)
include h hget

theorem field_has {field : Field} (hf : field ∈ e.fields) : table.Has field.ty :=
  (h.refs hget _ (mem_refs_of_layout (h.laidOut hget).layout hf)).1

theorem elem_has {elem : TypeId} {len : Word} (hkind : e.kind = .array elem len) :
    table.Has elem :=
  (h.refs hget elem (by rw [hkind]; exact List.mem_singleton_self _)).1

/-- The fields of a struct lie one after the other, and the struct ends at the next multiple of
    its alignment. -/
theorem placed {name : Option String} {members : List Member}
    (hkind : e.kind = .struct name members) :
    ∃ stop, Placed table 0 e.fields stop ∧ e.size.toNat = roundUpTo e.align.toNat stop :=
  (h.laidOut hget).placed hkind

theorem isStruct_of_mem {field : Field} (hf : field ∈ e.fields) :
    ∃ name members, e.kind = .struct name members :=
  (h.laidOut hget).isStruct_of_mem hf

theorem field_end_le {field : Field} (hf : field ∈ e.fields) :
    field.offset.toNat + (table.sizeOf field.ty).toNat ≤ e.size.toNat :=
  (h.laidOut hget).field_end_le hf

/-- Bytes of two fields have different offsets, unless the fields are the same. -/
theorem eq_of_overlap {f g : Field} (hf : f ∈ e.fields) (hg : g ∈ e.fields) {d : Nat}
    (hdf : f.offset.toNat ≤ d ∧ d < f.offset.toNat + (table.sizeOf f.ty).toNat)
    (hdg : g.offset.toNat ≤ d ∧ d < g.offset.toNat + (table.sizeOf g.ty).toNat) : f = g := by
  obtain ⟨name, members, hkind⟩ := h.isStruct_of_mem hget hf
  obtain ⟨stop, hplaced, _⟩ := h.placed hget hkind
  obtain ⟨i, hi, rfl⟩ := List.getElem_of_mem hf
  obtain ⟨j, hj, rfl⟩ := List.getElem_of_mem hg
  rcases Nat.lt_trichotomy i j with hij | rfl | hij
  · have hle := List.pairwise_iff_getElem.1 hplaced.pairwise i j hi hj hij
    omega
  · rfl
  · have hle := List.pairwise_iff_getElem.1 hplaced.pairwise j i hj hi hij
    omega

/-- The first field of a struct starts where the struct does. -/
theorem offset_head {first : Field} {rest : List Field} (hfields : e.fields = first :: rest) :
    first.offset.toNat = 0 := by
  obtain ⟨name, members, hkind⟩ := h.isStruct_of_mem hget (hfields ▸ List.mem_cons_self)
  have hlayout := (h.laidOut hget).layout
  rw [hkind] at hlayout
  obtain ⟨stop, hplaced, _, _⟩ := layout_struct hlayout
  rw [hfields] at hplaced
  cases members with
  | nil => cases hplaced
  | cons member members =>
    obtain ⟨e', _, hplaced⟩ := bind_eq_ok_iff.1 hplaced
    obtain ⟨offset, hoffset, hplaced⟩ := bind_eq_ok_iff.1 hplaced
    obtain ⟨next, _, hplaced⟩ := bind_eq_ok_iff.1 hplaced
    obtain ⟨⟨rest', last⟩, _, hplaced⟩ := bind_eq_ok_iff.1 hplaced
    cases hplaced
    rw [Word.toNat_of_roundUp hoffset]
    exact roundUpTo_of_dvd (Nat.dvd_zero _)

/-- Without padding the fields fill the struct. -/
theorem contiguous {name : Option String} {members : List Member}
    (hkind : e.kind = .struct name members)
    (hpadded : ∀ field next, (field, next) ∈ followed e.size e.fields →
      table.isPadded field next = false) :
    Contiguous table 0 e.fields e.size.toNat := by
  obtain ⟨stop, hplaced, hsize⟩ := h.placed hget hkind
  cases hfields : e.fields with
  | nil =>
    -- A struct without fields has size zero.
    rw [hfields] at hplaced
    rw [Contiguous, hsize, ← hplaced]
    exact (roundUpTo_of_dvd (Nat.dvd_zero _)).symm
  | cons first rest =>
    rw [hfields] at hplaced hpadded
    rw [← h.offset_head hget hfields]
    exact hplaced.contiguous (hsize ▸ le_roundUpTo _ _) hpadded

/-! ### Arrays -/

theorem size_eq_saturatingMul {elem : TypeId} {len : Word} (hkind : e.kind = .array elem len) :
    e.size = Word.saturatingMul (table.sizeOf elem) len ∧ e.align = table.alignOf elem := by
  have hlayout := (h.laidOut hget).layout
  rw [hkind] at hlayout
  obtain ⟨e', he', hlayout⟩ := bind_eq_ok_iff.1 hlayout
  have heq : (⟨[], Word.saturatingMul e'.size len, e'.align⟩ : Layout) = e.toLayout :=
    Except.ok.inj hlayout
  have hsize : e.size = Word.saturatingMul e'.size len := by rw [← heq]
  have halign : e.align = e'.align := by rw [← heq]
  rw [sizeOf, alignOf, entry_of_get he']
  exact ⟨hsize, halign⟩

/-- The size of an array is the product of the element size and the length, if there is memory
    to hold it. -/
theorem size_array {elem : TypeId} {len : Word} (hkind : e.kind = .array elem len)
    (hsize : e.size.toNat < UInt64.size - 1) :
    e.size.toNat = (table.sizeOf elem).toNat * len.toNat := by
  rw [(h.size_eq_saturatingMul hget hkind).1, Word.toNat_saturatingMul] at hsize ⊢
  omega

theorem elem_end_le {elem : TypeId} {len : Word} (hkind : e.kind = .array elem len)
    (hsize : e.size.toNat < UInt64.size - 1) {i : Nat} (hi : i < len.toNat) :
    i * (table.sizeOf elem).toNat + (table.sizeOf elem).toNat ≤ e.size.toNat := by
  rw [h.size_array hget hkind hsize, ← Nat.succ_mul, Nat.mul_comm]
  exact Nat.mul_le_mul_left _ hi

end Lawful

/-! ### Whole blocks -/

theorem Word.toNat_max (a b : Word) : (max a b).toNat = max a.toNat b.toNat := by
  change (if a ≤ b then b else a).toNat = _
  split
  · next hle => rw [Nat.max_eq_right (UInt64.le_iff_toNat_le.1 hle)]
  · next hle => rw [Nat.max_eq_left (by rw [UInt64.le_iff_toNat_le] at hle; omega)]

instance : Std.LawfulOrderMax Word := by
  refine .of_max_le_iff (fun a b c => ?_) fun a b => ?_
  · rw [UInt64.le_iff_toNat_le, Word.toNat_max, Nat.max_le, UInt64.le_iff_toNat_le,
      UInt64.le_iff_toNat_le]
  · rcases Nat.le_total a.toNat b.toNat with hle | hle
    · exact .inr (UInt64.toNat_inj.1 ((Word.toNat_max a b).trans (Nat.max_eq_right hle)))
    · exact .inl (UInt64.toNat_inj.1 ((Word.toNat_max a b).trans (Nat.max_eq_left hle)))

/-- The alignment of wide scalars divides their sizes. -/
theorem wideAlign_dvd {target : Target} (h : target.isValid = true) :
    max target.wideAlign.toNat 1 ∣ 8 := by
  simp only [Target.isValid, Bool.and_eq_true, decide_eq_true_iff] at h
  obtain ⟨⟨⟨_, hpower⟩, hle⟩, _⟩ := h
  obtain ⟨k, hk⟩ := isPowerOfTwo_iff.1 hpower
  have hpos := pos_of_isPowerOfTwo hpower
  unfold Target.wideAlign
  split
  · next hlt =>
    have hlt' : Nat.pow 2 k < Nat.pow 2 3 := hk ▸ UInt64.lt_iff_toNat_lt.1 hlt
    rw [Nat.max_eq_left hpos, hk]
    exact Nat.pow_dvd_pow 2 (Nat.le_of_lt ((Nat.pow_lt_pow_iff_right (by decide)).1 hlt'))
  · exact Nat.dvd_refl 8

theorem pointerSize_pos {target : Target} (h : target.isValid = true) :
    0 < target.pointerSize.toNat := by
  simp only [Target.isValid, Bool.and_eq_true] at h
  exact pos_of_isPowerOfTwo h.1.1.1

/-- Every type that is no array takes up whole blocks of its alignment if all opaque memory does. -/
theorem Lawful.align_dvd_size_of_not_array (h : Lawful table) (hwhole : table.OpaqueWhole)
    (hget : table.get ty = .ok e) (hkind : ∀ elem len, e.kind ≠ .array elem len) :
    max e.align.toNat 1 ∣ e.size.toNat := by
  have hlayout := (h.laidOut hget).layout
  have hpointer : max table.target.pointerSize.toNat 1 ∣ table.target.pointerSize.toNat := by
    simp only [Nat.max_eq_left (pointerSize_pos h.valid), Nat.dvd_refl]
  have hof : ∀ {size align : Word}, ⟨[], size, align⟩ = e.toLayout →
      max align.toNat 1 ∣ size.toNat → max e.align.toNat 1 ∣ e.size.toNat := by
    intro size align heq hdvd
    rwa [← heq]
  cases hkind' : e.kind with
  | bool | int8 | uint8 | int16 | uint16 | int32 | uint32 | float32 | complex64 =>
    rw [hkind'] at hlayout
    exact hof (Except.ok.inj hlayout) (by decide)
  | int64 | uint64 | float64 =>
    rw [hkind'] at hlayout
    exact hof (Except.ok.inj hlayout) (wideAlign_dvd h.valid)
  | complex128 =>
    rw [hkind'] at hlayout
    exact hof (Except.ok.inj hlayout) (Nat.dvd_trans (wideAlign_dvd h.valid) (by decide))
  | uintptr | unsafePointer | pointer _ | chan _ | map _ _ | func _ _ =>
    rw [hkind'] at hlayout
    exact hof (Except.ok.inj hlayout) hpointer
  | string | any | interface _ | slice _ =>
    rw [hkind'] at hlayout
    obtain ⟨size, hsize, hlayout⟩ := bind_eq_ok_iff.1 hlayout
    refine hof (Except.ok.inj hlayout) ?_
    rw [Word.toNat_of_mul hsize]
    exact Nat.dvd_trans hpointer (Nat.dvd_mul_left _ _)
  | opaqueMemory size align =>
    have haligned := h.aligned hget
    -- Opaque memory is the one type whose size is given together with its alignment.
    have hdvd := hwhole ⟨e, hget⟩ (by rw [kind, entry_of_get hget, hkind'])
    rw [hkind'] at hlayout haligned
    refine hof (Except.ok.inj hlayout) ?_
    rwa [Nat.max_eq_left (pos_of_isPowerOfTwo haligned)]
  | array elem len => exact absurd hkind' (hkind elem len)
  | struct name members =>
    rw [hkind'] at hlayout
    obtain ⟨stop, _, hsize, _⟩ := layout_struct hlayout
    rw [Word.toNat_of_roundUp hsize]
    exact dvd_roundUpTo _ _

/-- Every type takes up whole blocks of its alignment if all opaque memory does, but for an array
    that no memory can hold. -/
theorem Lawful.align_dvd_size {ty : TypeId} {e : Entry} (h : Lawful table)
    (hwhole : table.OpaqueWhole) (hget : table.get ty = .ok e) :
    max e.align.toNat 1 ∣ e.size.toNat ∨ e.size.toNat = UInt64.size - 1 := by
  by_cases hkind : ∃ elem len, e.kind = .array elem len
  · obtain ⟨elem, len, hkind⟩ := hkind
    obtain ⟨e', he'⟩ := h.elem_has hget hkind
    obtain ⟨hsize, halign⟩ := h.size_eq_saturatingMul hget hkind
    have hlt := part_lt hget (Entry.elem_mem_parts hkind)
    rw [hsize, halign, alignOf, sizeOf, entry_of_get he', Word.toNat_saturatingMul]
    rcases h.align_dvd_size hwhole he' with hdvd | hmax
    · rcases Nat.le_total (e'.size.toNat * len.toNat) (UInt64.size - 1) with hle | hle
      · rw [Nat.min_eq_left hle]
        exact .inl (Nat.dvd_trans hdvd (Nat.dvd_mul_right _ _))
      · exact .inr (Nat.min_eq_right hle)
    · -- Of an element that fills all memory there is at most none, or a larger array.
      rw [hmax]
      rcases Nat.eq_zero_or_pos len.toNat with hlen | hlen
      · rw [hlen]
        exact .inl (Nat.dvd_zero _)
      · exact .inr (Nat.min_eq_right (Nat.le_mul_of_pos_right _ hlen))
  · exact .inl (h.align_dvd_size_of_not_array hwhole hget fun elem len heq =>
      hkind ⟨elem, len, heq⟩)
termination_by ty.raw.toNat
decreasing_by exact UInt32.lt_iff_toNat_lt.1 hlt

/-- A lone field takes up the whole struct if all opaque memory takes up whole blocks. -/
theorem Lawful.size_lone (h : Lawful table) (hwhole : table.OpaqueWhole)
    (hget : table.get ty = .ok e) {field : Field} (hfields : e.fields = [field]) :
    table.sizeOf field.ty = e.size := by
  have hmem : field ∈ e.fields := hfields ▸ List.mem_singleton_self _
  obtain ⟨name, members, hkind⟩ := h.isStruct_of_mem hget hmem
  obtain ⟨e', he'⟩ := h.field_has hget hmem
  obtain ⟨stop, hplaced, hsize⟩ := h.placed hget hkind
  have hoffset := h.offset_head hget hfields
  rw [hfields, Placed, Placed, hoffset, Nat.zero_add] at hplaced
  rw [sizeOf, entry_of_get he'] at hplaced ⊢
  rw [← UInt64.toNat_inj, hsize, ← hplaced.2]
  rcases h.align_dvd_size hwhole he' with hdvd | hmax
  · have halign : e.align = max 1 e'.align := by
      have hlayout := (h.laidOut hget).layout
      rw [hkind] at hlayout
      obtain ⟨_, _, _, halign⟩ := layout_struct hlayout
      rw [halign, hfields, List.map_singleton, List.foldl_cons, List.foldl_nil, alignOf,
        entry_of_get he']
    rw [halign, Word.toNat_max, Nat.max_comm]
    exact (roundUpTo_of_dvd hdvd).symm
  · -- The struct is not smaller than its field, which is as large as there is.
    have hle := le_roundUpTo e.align.toNat e'.size.toNat
    have hlt := e.size.toNat_lt_size
    rw [hplaced.2, ← hsize] at hle ⊢
    omega

end TypeTable

end HashEq
