import HashEq.Proofs.Machine.StoredEquality
import HashEq.Proofs.Machine.TableChecks
import HashEq.Proofs.TypeTable.Grown

/-!
# Aligned places

If all opaque memory takes up whole blocks of its alignment and no array is too large
for the words that count its bytes, every type takes up whole blocks of its alignment.
Then fields and elements of a value at an aligned address lie at aligned addresses, and
so do their own fields and elements.

Plain memory is left to a primitive of a fixed width only if its alignment is as large
as the width, or as the alignment that loads need. So whatever lies at an aligned
address can be loaded.

* `Lawful.align_dvd_size_of_unsaturated`: types take up whole blocks;
* `SubPlace.aligned`: the parts of an aligned value are aligned;
* `SubPlace.fieldPlace`, `SubPlace.elementPlace`: what generated code selects are such
  parts;
* `loadable_of_aligned`: aligned plain memory can be loaded;
* `places_aligned`: all of this for the tables that are built.
-/

namespace HashEq

/-- Of two powers of two the smaller one divides the larger one. -/
theorem dvd_of_isPowerOfTwo_of_le {a b : Nat} (ha : isPowerOfTwo a = true)
    (hb : isPowerOfTwo b = true) (hle : a ≤ b) : a ∣ b := by
  obtain ⟨i, rfl⟩ := isPowerOfTwo_iff.1 ha
  obtain ⟨j, rfl⟩ := isPowerOfTwo_iff.1 hb
  exact Nat.pow_dvd_pow 2 ((Nat.pow_le_pow_iff_right (by decide)).1 hle)

theorem le_foldl_max {aligns : List Word} {align : Word} :
    align.toNat ≤ (aligns.foldl max align).toNat ∧
      ∀ a ∈ aligns, a.toNat ≤ (aligns.foldl max align).toNat := by
  induction aligns generalizing align with
  | nil => exact ⟨Nat.le_refl _, nofun⟩
  | cons b aligns ih =>
    obtain ⟨hle, hall⟩ := @ih (max align b)
    rw [TypeTable.Word.toNat_max] at hle
    exact ⟨Nat.le_trans (Nat.le_max_left _ _) hle,
      List.forall_mem_cons.2 ⟨Nat.le_trans (Nat.le_max_right _ _) hle, hall⟩⟩

namespace TypeTable

/-- A word holds the number of bytes in every array. -/
def Unsaturated (table : TypeTable) : Prop :=
  ∀ {ty elem : TypeId} {len : Word}, table.Has ty → table.kind ty = .array elem len →
    (table.sizeOf elem).toNat * len.toNat < UInt64.size

/-- The parts of a value of type `ty` at `addr`: the value itself, the fields of its parts that are
    structs, and the elements of those that are arrays, each with its type and address. -/
inductive SubPlace (table : TypeTable) (ty : TypeId) (addr : Nat) : TypeId → Nat → Prop
  | whole : SubPlace table ty addr ty addr
  | field {owner : TypeId} {base : Nat} {e : Entry} {field : Field} :
      SubPlace table ty addr owner base → table.get owner = .ok e → field ∈ e.fields →
      SubPlace table ty addr field.ty (base + field.offset.toNat)
  | element {array elem : TypeId} {base i : Nat} {e : Entry} {len : Word} :
      SubPlace table ty addr array base → table.get array = .ok e → e.kind = .array elem len →
      i < len.toNat → SubPlace table ty addr elem (base + i * (table.sizeOf elem).toNat)

/-- A value of type `ty` at `addr` can be loaded by a primitive of a fixed width, if there is one for
    its type: the address is a multiple of the width, or of the alignment that loads need. -/
def Loadable (table : TypeTable) (ty : TypeId) (addr : Nat) : Prop :=
  ∀ width, table.algorithm ty = .fixedMemory width → width ≠ .w0 →
    min width.bytes.toNat table.target.minAlignment.toNat ∣ addr

variable {table : TypeTable} {ty owner array elem part : TypeId} {e : Entry} {addr place : Nat}

/-! ### Types -/

/-- Types take up whole blocks of their alignment. -/
theorem Lawful.align_dvd_size_of_unsaturated {ty : TypeId} {e : Entry} (h : Lawful table)
    (hwhole : table.OpaqueWhole) (harrays : table.Unsaturated) (hget : table.get ty = .ok e) :
    e.align.toNat ∣ e.size.toNat := by
  by_cases hkind : ∃ elem len, e.kind = .array elem len
  · -- An array has the alignment of its elements and a multiple of their size.
    obtain ⟨elem, len, hkind⟩ := hkind
    have hlt := part_lt hget (Entry.elem_mem_parts hkind)
    obtain ⟨e', he'⟩ := h.elem_has hget hkind
    obtain ⟨hsize, halign⟩ := h.size_eq_saturatingMul hget hkind
    have hfits := harrays ⟨e, hget⟩ (by rw [kind_of_get hget, hkind])
    have hdvd := h.align_dvd_size_of_unsaturated hwhole harrays he'
    rw [hsize, halign, Word.toNat_saturatingMul, Nat.min_eq_left (by omega), alignOf, sizeOf,
      entry_of_get he']
    exact Nat.dvd_trans hdvd (Nat.dvd_mul_right _ _)
  · have hdvd := h.align_dvd_size_of_not_array hwhole hget fun elem len heq =>
      hkind ⟨elem, len, heq⟩
    have hpower := h.coherent.isPowerOfTwo_align hget
    rwa [Nat.max_eq_left (pos_of_isPowerOfTwo hpower)] at hdvd
termination_by ty.raw.toNat
decreasing_by exact UInt32.lt_iff_toNat_lt.1 hlt

section Types

variable (h : Lawful table) (hwhole : table.OpaqueWhole) (harrays : table.Unsaturated)
include h

theorem Lawful.isPowerOfTwo_align (hget : table.get ty = .ok e) :
    isPowerOfTwo e.align.toNat = true :=
  h.coherent.isPowerOfTwo_align hget

/-- The alignment of a struct is a multiple of that of every field. -/
theorem Lawful.field_align_dvd (hget : table.get ty = .ok e) {field : Field}
    (hf : field ∈ e.fields) : (table.alignOf field.ty).toNat ∣ e.align.toNat := by
  obtain ⟨name, members, hkind⟩ := h.isStruct_of_mem hget hf
  obtain ⟨e', he'⟩ := h.field_has hget hf
  have hlayout := (h.laidOut hget).layout
  rw [hkind] at hlayout
  obtain ⟨_, _, _, halign⟩ := layout_struct hlayout
  refine dvd_of_isPowerOfTwo_of_le ?_ (h.isPowerOfTwo_align hget) ?_
  · rw [alignOf, entry_of_get he']
    exact h.isPowerOfTwo_align he'
  · rw [halign]
    exact le_foldl_max.2 _ (List.mem_map_of_mem hf)

theorem align_dvd_offset_of_placeMembers {members : List Member} {start stop : Word}
    {fields : List Field} (hplaced : table.placeMembers start members = .ok (fields, stop)) :
    ∀ field ∈ fields, (table.alignOf field.ty).toNat ∣ field.offset.toNat := by
  induction members generalizing start fields with
  | nil =>
    cases hplaced
    exact nofun
  | cons member members ih =>
    obtain ⟨e, he, hplaced⟩ := bind_eq_ok_iff.1 hplaced
    obtain ⟨offset, hoffset, hplaced⟩ := bind_eq_ok_iff.1 hplaced
    obtain ⟨next, _, hplaced⟩ := bind_eq_ok_iff.1 hplaced
    obtain ⟨⟨rest, last⟩, hrest, hplaced⟩ := bind_eq_ok_iff.1 hplaced
    cases hplaced
    refine List.forall_mem_cons.2 ⟨?_, ih hrest⟩
    have hdvd := dvd_roundUpTo e.align.toNat start.toNat
    rw [Nat.max_eq_left (pos_of_isPowerOfTwo (h.isPowerOfTwo_align he))] at hdvd
    rw [Word.toNat_of_roundUp hoffset, alignOf, entry_of_get he]
    exact hdvd

/-- Fields lie at multiples of their alignment. -/
theorem Lawful.align_dvd_offset (hget : table.get ty = .ok e) {field : Field}
    (hf : field ∈ e.fields) : (table.alignOf field.ty).toNat ∣ field.offset.toNat := by
  obtain ⟨name, members, hkind⟩ := h.isStruct_of_mem hget hf
  have hlayout := (h.laidOut hget).layout
  rw [hkind] at hlayout
  obtain ⟨stop, hplaced, _⟩ := layout_struct hlayout
  exact align_dvd_offset_of_placeMembers h hplaced field hf

/-! ### Parts of values -/

theorem SubPlace.has (hty : table.Has ty) (hsub : table.SubPlace ty addr part place) :
    table.Has part := by
  induction hsub with
  | whole => exact hty
  | field _ hget hf _ => exact h.field_has hget hf
  | element _ hget hkind _ _ => exact h.elem_has hget hkind

include hwhole harrays in
/-- The parts of a value at an aligned address lie at aligned addresses. -/
theorem SubPlace.aligned (haddr : (table.alignOf ty).toNat ∣ addr)
    (hsub : table.SubPlace ty addr part place) : (table.alignOf part).toNat ∣ place := by
  induction hsub with
  | whole => exact haddr
  | field _ hget hf ih =>
    rw [alignOf, entry_of_get hget] at ih
    exact Nat.dvd_add (Nat.dvd_trans (h.field_align_dvd hget hf) ih) (h.align_dvd_offset hget hf)
  | @element array elem base i e len _ hget hkind _ ih =>
    obtain ⟨e', he'⟩ := h.elem_has hget hkind
    rw [alignOf, entry_of_get hget, (h.size_eq_saturatingMul hget hkind).2] at ih
    refine Nat.dvd_add ih (Nat.dvd_trans ?_ (Nat.dvd_mul_left _ i))
    rw [alignOf, sizeOf, entry_of_get he']
    exact h.align_dvd_size_of_unsaturated hwhole harrays he'

end Types

theorem liftM_eq_ok_iff {α : Type} {x : Except Fault α} {a : α} :
    (liftM x : Except EvalError α) = .ok a ↔ x = .ok a := by
  cases x with
  | error f => exact iff_of_false nofun nofun
  | ok b => exact ⟨fun heq => by cases heq; rfl, fun heq => by cases heq; rfl⟩

/-- A field that generated code selects is a part of the value. -/
theorem SubPlace.fieldPlace {base p : Word} {index : Nat}
    (hsub : table.SubPlace ty addr owner base.toNat)
    (hselect : Interpreter.fieldPlace table base owner index = .ok (.place p part)) :
    table.SubPlace ty addr part p.toNat := by
  obtain ⟨e, he, hselect⟩ := bind_eq_ok_iff.1 hselect
  rw [liftM_eq_ok_iff] at he
  cases hfield : e.fields[index]? with
  | none =>
    simp only [hfield] at hselect
    cases hselect
  | some field =>
    simp only [hfield] at hselect
    obtain ⟨sum, hsum, hselect⟩ := bind_eq_ok_iff.1 hselect
    cases hselect
    rw [Word.toNat_of_add (liftM_eq_ok_iff.1 hsum)]
    exact hsub.field he (List.mem_of_getElem? hfield)

/-- An element that generated code selects is a part of the value, if the array has it. Generated
    code either knows that or checks it. -/
theorem SubPlace.elementPlace {base p index len : Word} {bounded : Bool} {e : Entry}
    (hsub : table.SubPlace ty addr array base.toNat) (hget : table.get array = .ok e)
    (hkind : e.kind = .array elem len) (hindex : bounded = true → index < len)
    (hselect : Interpreter.elementPlace table base array index elem bounded = .ok (.place p part)) :
    table.SubPlace ty addr part p.toNat := by
  have harray : table.arrayElem? array = some (elem, len) := by
    rw [arrayElem?, kind_of_get hget, hkind]
  have hselect' : index < len ∧ (do
      let offset ← Word.mul index (table.sizeOf elem)
      return .place (← Word.add base offset) elem : Except EvalError Operand) = .ok (.place p part) := by
    cases bounded with
    | true => exact ⟨hindex rfl, hselect⟩
    | false =>
      simp only [Interpreter.elementPlace, harray, Bool.not_false, ↓reduceIte] at hselect
      split at hselect
      · cases hselect
      · next hle => exact ⟨UInt64.not_le.1 hle, hselect⟩
  obtain ⟨hlt, hselect⟩ := hselect'
  obtain ⟨offset, hoffset, hselect⟩ := bind_eq_ok_iff.1 hselect
  obtain ⟨sum, hsum, hselect⟩ := bind_eq_ok_iff.1 hselect
  cases hselect
  rw [Word.toNat_of_add (liftM_eq_ok_iff.1 hsum), Word.toNat_of_mul (liftM_eq_ok_iff.1 hoffset)]
  exact hsub.element hget hkind (UInt64.lt_iff_toNat_lt.1 hlt)

/-! ### Loads -/

theorem isPowerOfTwo_minAlignment {target : Target} (h : target.isValid = true) :
    isPowerOfTwo target.minAlignment.toNat = true := by
  simp only [Target.isValid, Bool.and_eq_true] at h
  exact h.2

/-- Plain memory at an aligned address can be loaded. -/
theorem Lawful.loadable_of_aligned (h : Lawful table) (hty : table.Has ty)
    (haddr : (table.alignOf ty).toNat ∣ addr) : table.Loadable ty addr := by
  intro width halgorithm hwidth
  have hmemory : table.memoryAlgorithm (table.sizeOf ty) (table.alignOf ty) = .fixedMemory width := by
    cases hbase : table.base ty <;> simp_all [algorithm]
  have hbytes : width.bytes = table.sizeOf ty := by
    rcases table.memoryAlgorithm_cases (table.sizeOf ty) (table.alignOf ty) with
      hvar | ⟨width', hbytes, hfixed⟩
    · rw [hvar] at hmemory
      cases hmemory
    · rw [hfixed] at hmemory
      cases hmemory
      exact hbytes
  -- What is aligned less than loads need and than its size takes is not loaded in one piece.
  have hstrong : ¬(table.alignOf ty < table.target.minAlignment ∧
      table.alignOf ty < table.sizeOf ty) := fun hweak => by
    rw [memoryAlgorithm, if_pos hweak] at hmemory
    cases hmemory
  have halign : isPowerOfTwo (table.alignOf ty).toNat = true := by
    rw [alignOf, entry_of_get hty.get_eq]
    exact h.isPowerOfTwo_align hty.get_eq
  have hmin := isPowerOfTwo_minAlignment h.valid
  have hwidth' : isPowerOfTwo width.bytes.toNat = true := by
    cases width with
    | w0 => exact absurd rfl hwidth
    | _ => decide
  refine Nat.dvd_trans ?_ haddr
  rw [UInt64.lt_iff_toNat_lt, UInt64.lt_iff_toNat_lt, ← hbytes] at hstrong
  -- Among powers of two the smaller one divides the other.
  rcases Nat.le_total width.bytes.toNat table.target.minAlignment.toNat with hle | hle
  · rw [Nat.min_eq_left hle]
    exact dvd_of_isPowerOfTwo_of_le hwidth' halign (by omega)
  · rw [Nat.min_eq_right hle]
    exact dvd_of_isPowerOfTwo_of_le hmin halign (by omega)

end TypeTable

open TypeTable

variable {table : TypeTable} {ty : TypeId}

/-! ### Values in memory -/

/-- New memory starts at a multiple of the alignment that is asked for. -/
theorem StoreM.align_dvd_of_alloc {size align start : Word} {fill : UInt8} {before after : Arena}
    (h : StoreM.alloc size align fill before = (.ok start, after)) :
    max align.toNat 1 ∣ start.toNat := by
  obtain ⟨_, hroom, _⟩ := StoreM.alloc_eq_ok_iff.1 h
  obtain ⟨start, hstart, hroom⟩ := bind_eq_ok_iff.1 hroom
  obtain ⟨stop, _, hroom⟩ := bind_eq_ok_iff.1 hroom
  cases hroom
  rw [Word.checked_eq_ok_iff.1 hstart]
  exact dvd_roundUpTo _ _

/-- A value is stored at an aligned address. -/
theorem Value.align_dvd_of_store (h : Lawful table) {fill : UInt8} {value : Value} {p : Word}
    {before after : Arena} (hstore : value.store table fill ty before = (.ok p, after)) :
    table.Has ty ∧ (table.alignOf ty).toNat ∣ p.toNat := by
  obtain ⟨e, _, hlift, hstore⟩ := of_bind_eq_ok hstore
  obtain ⟨hget, rfl⟩ := StoreM.of_lift_eq_ok hlift
  obtain ⟨addr, between, halloc, hstore⟩ := of_bind_eq_ok hstore
  obtain ⟨_, between', _, hreturn⟩ := of_bind_eq_ok hstore
  cases hreturn
  have hdvd := StoreM.align_dvd_of_alloc halloc
  rw [Nat.max_eq_left (pos_of_isPowerOfTwo (h.isPowerOfTwo_align hget))] at hdvd
  rw [alignOf, entry_of_get hget]
  exact ⟨⟨e, hget⟩, hdvd⟩

/-- All values of a table lie where their types want them. -/
structure PlacesAligned (table : TypeTable) : Prop where
  /-- Alignments are powers of two, and types take up whole blocks. -/
  types : ∀ ty e, table.get ty = .ok e →
    isPowerOfTwo e.align.toNat = true ∧ e.align.toNat ∣ e.size.toNat
  /-- The parts of an aligned value are aligned, and can be loaded. -/
  parts : ∀ ty addr part place, table.Has ty → (table.alignOf ty).toNat ∣ addr →
    table.SubPlace ty addr part place →
      (table.alignOf part).toNat ∣ place ∧ table.Loadable part place
  /-- A field that generated code selects is such a part. -/
  fields : ∀ ty addr owner (base : Word) index p part, table.SubPlace ty addr owner base.toNat →
    Interpreter.fieldPlace table base owner index = .ok (.place p part) →
      table.SubPlace ty addr part p.toNat
  /-- So is an element that the array has. -/
  elements : ∀ ty addr array e elem (len base : Word) index bounded p part,
    table.SubPlace ty addr array base.toNat → table.get array = .ok e →
    e.kind = .array elem len → (bounded = true → index < len) →
    Interpreter.elementPlace table base array index elem bounded = .ok (.place p part) →
      table.SubPlace ty addr part p.toNat
  /-- What is stored is aligned, and can be loaded. -/
  stored : ∀ ty value fill machine after (p : Word), machine.table = table →
    Machine.store ty value fill machine = (.ok p, after) →
      (table.alignOf ty).toNat ∣ p.toNat ∧ table.Loadable ty p.toNat

/-- Values of a table that is built lie where their types want them, if all opaque memory takes up
    whole blocks of its alignment and words hold the numbers of bytes of all arrays. -/
theorem places_aligned (hbuilt : Built table) (hwhole : table.OpaqueWhole)
    (harrays : table.Unsaturated) : PlacesAligned table := by
  have h := hbuilt.lawful
  refine ⟨fun ty e hget => ?_, fun ty addr part place hty haddr hsub => ?_,
    fun ty addr owner base index p part hsub hselect => hsub.fieldPlace hselect,
    fun ty addr array e elem len base index bounded p part hsub hget hkind hindex hselect =>
      hsub.elementPlace hget hkind hindex hselect,
    fun ty value fill machine after p htable hstore => ?_⟩
  · exact ⟨h.isPowerOfTwo_align hget, h.align_dvd_size_of_unsaturated hwhole harrays hget⟩
  · have hdvd := hsub.aligned h hwhole harrays haddr
    exact ⟨hdvd, h.loadable_of_aligned (hsub.has h hty) hdvd⟩
  · obtain ⟨hstored, _⟩ := Machine.of_store_eq_ok hstore
    rw [htable] at hstored
    obtain ⟨hty, hdvd⟩ := Value.align_dvd_of_store h hstored
    exact ⟨hdvd, h.loadable_of_aligned hty hdvd⟩

/-- A table for a machine that loads from aligned addresses only: opaque memory aligned to two
    bytes, a struct, and an array of structs. -/
def strictTable : TypeTable :=
  ofKinds .mips [.opaqueMemory 8 2, .struct none [⟨some "flag", ⟨0⟩⟩, ⟨some "block", ⟨32⟩⟩,
    ⟨some "wide", ⟨7⟩⟩], .array ⟨33⟩ 3]

theorem unsaturated_of_types (h : ∀ ty ∈ table.types, ∀ array ∈ table.arrayElem? ty,
    (table.sizeOf array.1).toNat * array.2.toNat < UInt64.size) : table.Unsaturated := by
  intro ty elem len hty hkind
  exact h ty hty.mem_types (elem, len) (by rw [arrayElem?, hkind]; exact rfl)

/-- Opaque memory that is weakly aligned is never loaded in one piece, and numbers are. -/
theorem places_aligned_strict : Built strictTable ∧ strictTable.OpaqueWhole ∧
    strictTable.Unsaturated ∧ PlacesAligned strictTable ∧
    strictTable.algorithm ⟨32⟩ = .varMemory ∧ strictTable.algorithm ⟨7⟩ = .fixedMemory .w32 := by
  have hbuilt : Built strictTable := built_ofKinds (by decide +kernel)
  have hwhole : strictTable.OpaqueWhole := opaqueWhole_of_kinds (by decide +kernel)
  have harrays : strictTable.Unsaturated := unsaturated_of_types (by decide +kernel)
  exact ⟨hbuilt, hwhole, harrays, places_aligned hbuilt hwhole harrays, by decide +kernel,
    by decide +kernel⟩

end HashEq
