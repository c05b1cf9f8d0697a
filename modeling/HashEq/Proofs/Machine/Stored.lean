import HashEq.Proofs.Machine.Reading
import HashEq.Proofs.Machine.Writing

/-!
# Stored values

A value that has been stored lies at its address, as long as nothing is written over
it: its numbers are there, cut to their sizes, and its strings and interfaces lead to
their bytes and to the values in them.

* `Value.Faithful`: nothing is lost when a value is stored, as far as bytes and the
  words for types go;
* `Value.leads`: a value leads to memory of its own;
* `Value.LiesAt`: a value of a type lies at an address;
* `Value.puts_write`: what is written lies in its slot and in new memory;
* `Value.puts_store`: what is stored lies in new memory.
-/

namespace HashEq

open TypeTable

namespace Value

/-- The number that a truth value, an integer or a pointer is. -/
def number? : Value → Option Int
  | bool value => some (if value then 1 else 0)
  | int value => some value.toInt
  | uint value => some value.toNat
  | _ => none

mutual

/-- Whether a value leads to memory of its own, as strings do and interfaces that are not nil. -/
def leads : Value → Bool
  | string _ | interface _ _ => true
  | list values => leadAny values
  | _ => false

/-- Whether one of several values leads to memory of its own. -/
def leadAny : List Value → Bool
  | [] => false
  | value :: values => leads value || leadAny values

end

section Definitions

variable (table : TypeTable)

mutual

/-- Bytes are given for opaque memory and for values without equality only, and the words for the
    types of values in interfaces fit into as many bytes as a pointer has. -/
def Faithful (ty : TypeId) : Value → Prop
  | bytes _ => (∃ size align, table.kind ty = .opaqueMemory size align) ∨ table.base ty = .noEquality
  | interface dynamic value =>
    (typeWord dynamic).toNat < 256 ^ table.target.pointerSize.toNat ∧ Faithful dynamic value
  | list values =>
    match table.kind ty with
    | .array elem _ => FaithfulElements elem values
    | _ => FaithfulFields (table.fields ty) values
  | _ => True

@[inherit_doc Faithful]
def FaithfulElements (elem : TypeId) : List Value → Prop
  | [] => True
  | value :: values => Faithful elem value ∧ FaithfulElements elem values

@[inherit_doc Faithful]
def FaithfulFields : List Field → List Value → Prop
  | field :: fields, value :: values => Faithful field.ty value ∧ FaithfulFields fields values
  | _, _ => True

end

variable (arena : Arena)

mutual

/-- A value of type `ty` lies at an address. -/
def LiesAt (ty : TypeId) (p : Word) : Value → Prop
  | bytes data => arena.read p (table.sizeOf ty) = .ok data
  | float32 bits => table.kind ty = .float32 ∧ arena.readWord p 4 = .ok bits.toUInt64
  | float64 bits => table.kind ty = .float64 ∧ arena.readWord p 8 = .ok bits
  | complex64 re im =>
    table.kind ty = .complex64 ∧ arena.readWord p 4 = .ok re.toUInt64 ∧
      arena.readWord (p + 4) 4 = .ok im.toUInt64
  | complex128 re im =>
    table.kind ty = .complex128 ∧ arena.readWord p 8 = .ok re ∧ arena.readWord (p + 8) 8 = .ok im
  | string text =>
    table.kind ty = .string ∧ ∃ start len, Primitives.loadPair table arena p = .ok (start, len) ∧
      arena.read start len = .ok text.toUTF8.toList
  | nil => (table.kind ty).isInterface = true ∧ Primitives.loadPair table arena p = .ok (0, 0)
  | interface dynamic value =>
    (table.kind ty).isInterface = true ∧ table.Has dynamic ∧ ∃ data,
      Primitives.loadPair table arena p = .ok (typeWord dynamic, data) ∧
      arena.inBounds data (table.sizeOf dynamic).toNat = true ∧ LiesAt dynamic data value
  | list values =>
    match table.kind ty with
    | .array elem len => values.length = len.toNat ∧ LieFrom elem p 0 values
    | .struct _ _ => values.length = (table.fields ty).length ∧ LieWithin p (table.fields ty) values
    | _ => False
  | value => ∃ number, value.number? = some number ∧ (table.kind ty).isWordLike = true ∧
      arena.read p (table.sizeOf ty) = .ok (Arena.lowBytes (table.sizeOf ty) (UInt64.ofInt number))

/-- The elements of an array lie at an address, from position `i` on. -/
def LieFrom (elem : TypeId) (p : Word) (i : Nat) : List Value → Prop
  | [] => True
  | value :: values =>
    LiesAt elem (p + UInt64.ofNat i * table.sizeOf elem) value ∧ LieFrom elem p (i + 1) values

/-- The fields of a struct lie within the one at an address. -/
def LieWithin (p : Word) : List Field → List Value → Prop
  | field :: fields, value :: values =>
    LiesAt field.ty (p + field.offset) value ∧ LieWithin p fields values
  | _, _ => True

end

end Definitions

end Value

/-! ### Words -/

theorem toNat_ofInt (number : Int) : (UInt64.ofInt number).toNat = (number % 2 ^ 64).toNat :=
  UInt64.toNat_ofNat_of_lt' (by unfold UInt64.size; omega)

theorem ofInt_toInt (value : Int64) : UInt64.ofInt value.toInt = value.toUInt64 := by
  have hround := congrArg BitVec.toNat (@BitVec.ofInt_toInt 64 value.toBitVec)
  rw [BitVec.toNat_ofInt] at hround
  rw [← UInt64.toNat_inj, toNat_ofInt]
  exact hround

theorem ofInt_toNat (value : Word) : UInt64.ofInt value.toNat = value := by
  have hlt := value.toNat_lt
  rw [← UInt64.toNat_inj, toNat_ofInt, Int.emod_eq_of_lt (by omega) (by omega), Int.toNat_natCast]

theorem toNat_toUInt64_lt (bits : UInt32) : bits.toUInt64.toNat < 256 ^ 4 := by
  rw [UInt32.toNat_toUInt64]
  exact bits.toNat_lt

/-! ### Sizes -/

namespace TypeTable.Lawful

variable {table : TypeTable} {ty : TypeId} (h : Lawful table) (hty : table.Has ty)
include h hty

theorem sizeOf_of_layout {size align : Word}
    (hlayout : table.layout (table.kind ty) = .ok ⟨[], size, align⟩) : table.sizeOf ty = size := by
  obtain ⟨e, hget⟩ := hty
  have hlaid := (h.laidOut hget).layout
  rw [kind_of_get hget] at hlayout
  rw [hlayout] at hlaid
  rw [sizeOf_of_get hget, ← Except.ok.inj hlaid]

/-- Truth values, integers and pointers fit into a word. -/
theorem sizeOf_le_of_isWordLike (hpointer : table.target.pointerSize.toNat ≤ 8)
    (hkind : (table.kind ty).isWordLike = true) : (table.sizeOf ty).toNat ≤ 8 := by
  have hsize : ∀ {size align : Word}, table.layout (table.kind ty) = .ok ⟨[], size, align⟩ →
      size.toNat ≤ 8 → (table.sizeOf ty).toNat ≤ 8 := fun hlayout hle => by
    rwa [h.sizeOf_of_layout hty hlayout]
  cases hkind' : table.kind ty with
  | bool | int8 | int16 | int32 | int64 | uint8 | uint16 | uint32 | uint64 =>
    rw [hkind'] at hsize
    exact hsize rfl (by decide)
  | uintptr | unsafePointer | pointer _ | chan _ =>
    rw [hkind'] at hsize
    exact hsize rfl hpointer
  | _ =>
    rw [hkind'] at hkind
    cases hkind

/-- A string or an interface is two words. -/
theorem toNat_sizeOf_pair (hkind : table.kind ty = .string ∨ (table.kind ty).isInterface = true) :
    (table.sizeOf ty).toNat = 2 * table.target.pointerSize.toNat := by
  obtain ⟨e, hget⟩ := hty
  rw [kind_of_get hget] at hkind
  rw [sizeOf_of_get hget]
  exact (layout_pair h hget hkind).1

end TypeTable.Lawful

/-! ### Writing values -/

namespace Value

variable {table : TypeTable} {fill : UInt8} {ty : TypeId} {e : Entry} {p : Word}
  {before after : Arena}

theorem not_of_mismatch (h : mismatch table ty before = (.ok (), after)) : False := by
  obtain ⟨text, between, _, h⟩ := of_bind_eq_ok h
  cases h

/-- Only values of the right kind are written. -/
theorem of_checked_eq_ok {condition : Prop} [Decidable condition] {action : StoreM Unit}
    (h : (if condition then action else mismatch table ty) before = (.ok (), after)) :
    condition ∧ action before = (.ok (), after) := by
  split at h
  · next hcondition => exact ⟨hcondition, h⟩
  · exact (not_of_mismatch h).elim

theorem write_number {value : Value} {number : Int} (hnumber : value.number? = some number) :
    write table fill p ty value =
      if (table.kind ty).isWordLike then
        StoreM.writeWord p (table.sizeOf ty) (UInt64.ofInt number)
      else mismatch table ty := by
  cases value with
  | bool value =>
    cases hnumber
    cases value <;> rfl
  | int value =>
    cases hnumber
    rw [ofInt_toInt]
    rfl
  | uint value =>
    cases hnumber
    rw [ofInt_toNat]
    rfl
  | _ => cases hnumber

theorem write_nil : write table fill p ty nil =
    if (table.kind ty).isInterface then StoreM.writePair p table.target.pointerSize 0 0
    else mismatch table ty := by
  rw [write]
  cases table.kind ty <;> rfl

theorem write_interface {dynamic : TypeId} {value : Value} :
    write table fill p ty (interface dynamic value) =
      if (table.kind ty).isInterface then (do
        let e ← table.get dynamic
        let data ← StoreM.alloc e.size e.align fill
        write table fill data dynamic value
        StoreM.writePair p table.target.pointerSize (typeWord dynamic) data)
      else mismatch table ty := by
  rw [write]
  cases table.kind ty <;> rfl

theorem leadAny_cons {value : Value} {values : List Value} :
    leadAny (value :: values) = true ↔ value.leads = true ∨ leadAny values = true := by
  rw [leadAny, Bool.or_eq_true]

theorem liesAt_number {arena : Arena} {value : Value} {number : Int}
    (hnumber : value.number? = some number) :
    value.LiesAt table arena ty p ↔ (table.kind ty).isWordLike = true ∧
      arena.read p (table.sizeOf ty) = .ok (Arena.lowBytes (table.sizeOf ty) (UInt64.ofInt number)) := by
  have hlies : value.LiesAt table arena ty p ↔ ∃ number, value.number? = some number ∧
      (table.kind ty).isWordLike = true ∧
      arena.read p (table.sizeOf ty) = .ok (Arena.lowBytes (table.sizeOf ty) (UInt64.ofInt number)) := by
    cases value with
    | bool _ | int _ | uint _ => rfl
    | _ => cases hnumber
  rw [hlies, hnumber]
  simp only [Option.some.injEq, exists_eq_left']

/-- The pair of words of a string or an interface, where both fit. -/
theorem puts_pair (hpointer : table.target.pointerSize.toNat ≤ 8) {first second : Word}
    (hspans : before.Spans p (2 * table.target.pointerSize.toNat))
    (h : StoreM.writePair p table.target.pointerSize first second before = (.ok (), after)) :
    Puts before after p.toNat (p.toNat + 2 * table.target.pointerSize.toNat) fun later =>
      first.toNat < 256 ^ table.target.pointerSize.toNat →
      second.toNat < 256 ^ table.target.pointerSize.toNat →
      Primitives.loadPair table later p = .ok (first, second) := by
  have hputs := StoreM.puts_writePair hpointer hspans h
  refine hputs.imp fun later _ hread hfirst hsecond => ?_
  rw [Primitives.loadPair, Primitives.loadWord, hread.1 hfirst,
    Arena.add_eq_ok hspans.inBounds (by omega)]
  change (Primitives.loadWord table later (p + table.target.pointerSize) >>= _) = _
  rw [Primitives.loadWord, hread.2 hsecond]
  rfl

/-- An element of an array is written to its place, and then those behind it. -/
theorem of_writeElements_cons (h : Lawful table) {len : Word} {elem : TypeId} {i : Nat}
    {value : Value} {values : List Value} (hget : table.get ty = .ok e)
    (hkind : e.kind = .array elem len) (hi : i < len.toNat) (hspans : before.Spans p e.size.toNat)
    (hwrite : writeElements table fill p elem i (value :: values) before = (.ok (), after)) :
    ∃ between, (p + UInt64.ofNat i * table.sizeOf elem).toNat =
        p.toNat + i * (table.sizeOf elem).toNat ∧
      before.Spans (p + UInt64.ofNat i * table.sizeOf elem) (table.sizeOf elem).toNat ∧
      write table fill (p + UInt64.ofNat i * table.sizeOf elem) elem value before =
        (.ok (), between) ∧
      writeElements table fill p elem (i + 1) values between = (.ok (), after) := by
  have hend := h.elem_end_le hget hkind (Arena.lt_of_inBounds hspans.inBounds) hi
  have hoffset := h.toNat_elementOffset hget hspans.inBounds hkind hi
  obtain ⟨hmul, hadd⟩ := h.elementOffset_eq hget hspans.inBounds hkind hi
  obtain ⟨htoNat, hpart⟩ := hspans.part (by rwa [hoffset])
  rw [writeElements] at hwrite
  obtain ⟨offset, _, hlift, hwrite⟩ := of_bind_eq_ok hwrite
  obtain ⟨hoffset', rfl⟩ := StoreM.of_lift_eq_ok hlift
  rw [hmul] at hoffset'
  cases hoffset'
  obtain ⟨addr, _, hlift, hwrite⟩ := of_bind_eq_ok hwrite
  obtain ⟨haddr, rfl⟩ := StoreM.of_lift_eq_ok hlift
  rw [hadd] at haddr
  cases haddr
  obtain ⟨_, between, hfirst, hrest⟩ := of_bind_eq_ok hwrite
  exact ⟨between, by rw [htoNat, hoffset], hpart, hfirst, hrest⟩

/-- A field of a struct is written to its place, and then those behind it. -/
theorem of_writeFields_cons {field : Field} {fields : List Field} {start stop : Nat}
    {value : Value} {values : List Value} (hplaced : table.Placed start (field :: fields) stop)
    (hspans : before.Spans p stop)
    (hwrite : writeFields table fill p (field :: fields) (value :: values) before =
      (.ok (), after)) :
    ∃ between, (p + field.offset).toNat = p.toNat + field.offset.toNat ∧
      before.Spans (p + field.offset) (table.sizeOf field.ty).toNat ∧
      write table fill (p + field.offset) field.ty value before = (.ok (), between) ∧
      writeFields table fill p fields values between = (.ok (), after) := by
  have hend := hplaced.2.le
  obtain ⟨htoNat, hpart⟩ := hspans.part hend
  rw [writeFields] at hwrite
  obtain ⟨addr, _, hlift, hwrite⟩ := of_bind_eq_ok hwrite
  obtain ⟨hadd, rfl⟩ := StoreM.of_lift_eq_ok hlift
  rw [Arena.add_eq_ok hspans.inBounds (by omega)] at hadd
  cases hadd
  obtain ⟨_, between, hfirst, hrest⟩ := of_bind_eq_ok hwrite
  exact ⟨between, htoNat, hpart, hfirst, hrest⟩

/-- A value lies at an address if all addresses fit into pointers, as far as the value leads
    anywhere. -/
def LiesIfFits (table : TypeTable) (ty : TypeId) (p : Word) (value : Value) (later : Arena) : Prop :=
  (value.leads = true → later.stop < 256 ^ table.target.pointerSize.toNat) →
    value.LiesAt table later ty p

/-- A number lies in its slot. -/
theorem puts_writeNumber {value : Value} {number : Int} (h : Lawful table)
    (hpointer : table.target.pointerSize.toNat ≤ 8) (hty : table.Has ty)
    (hnumber : value.number? = some number)
    (hwrite : write table fill p ty value before = (.ok (), after)) :
    Puts before after p.toNat (p.toNat + (table.sizeOf ty).toNat) (value.LiesIfFits table ty p) := by
  rw [write_number hnumber] at hwrite
  obtain ⟨hkind, hwrite⟩ := of_checked_eq_ok hwrite
  have hputs := StoreM.puts_writeWord (h.sizeOf_le_of_isWordLike hty hpointer hkind) hwrite
  exact hputs.imp fun later _ hread _ => (liesAt_number hnumber).2 ⟨hkind, hread⟩

/-- The bytes of a string lie in new memory, and its slot leads there. -/
theorem puts_writeString {text : String} (h : Lawful table)
    (hpointer : table.target.pointerSize.toNat ≤ 8) (hty : table.Has ty)
    (hspans : before.Spans p (table.sizeOf ty).toNat)
    (hwrite : write table fill p ty (string text) before = (.ok (), after)) :
    Puts before after p.toNat (p.toNat + (table.sizeOf ty).toNat)
      ((string text).LiesIfFits table ty p) := by
  obtain ⟨hkind, hwrite⟩ := of_checked_eq_ok hwrite
  rw [h.toNat_sizeOf_pair hty (.inl hkind)] at hspans ⊢
  obtain ⟨start, between, halloc, hwrite⟩ := of_bind_eq_ok hwrite
  obtain ⟨_, between', hcopy, hpair⟩ := of_bind_eq_ok hwrite
  obtain ⟨⟨_, hstop⟩, hcopy⟩ := StoreM.puts_copy halloc hcopy p.toNat
  have hpair := puts_pair hpointer (hspans.mono (Nat.le_refl _) hcopy.grows) hpair
  have hputs := hcopy.seq hpair (Nat.le_refl _) (Nat.le_add_right _ _) hspans.2
  have hgrows := hpair.grows
  refine hputs.imp fun later hle hread hlimit => ⟨hkind, start, _, ?_, hread.1⟩
  have hlimit := hlimit rfl
  exact hread.2 (by omega) (by omega)

/-- The value in an interface lies in new memory if it lies wherever it is written, and the slot of
    the interface leads there. -/
theorem puts_writeInterface {dynamic : TypeId} {value : Value} (h : Lawful table)
    (hpointer : table.target.pointerSize.toNat ≤ 8) (hty : table.Has ty)
    (hfits : (typeWord dynamic).toNat < 256 ^ table.target.pointerSize.toNat)
    (hspans : before.Spans p (table.sizeOf ty).toNat)
    (hwrite : write table fill p ty (interface dynamic value) before = (.ok (), after))
    (hinner : ∀ {data : Word} {fresh written : Arena}, table.Has dynamic →
      fresh.Spans data (table.sizeOf dynamic).toNat →
      write table fill data dynamic value fresh = (.ok (), written) →
      Puts fresh written data.toNat (data.toNat + (table.sizeOf dynamic).toNat)
        (value.LiesIfFits table dynamic data)) :
    Puts before after p.toNat (p.toNat + (table.sizeOf ty).toNat)
      ((interface dynamic value).LiesIfFits table ty p) := by
  rw [write_interface] at hwrite
  obtain ⟨hkind, hwrite⟩ := of_checked_eq_ok hwrite
  rw [h.toNat_sizeOf_pair hty (.inr hkind)] at hspans ⊢
  obtain ⟨e, _, hlift, hwrite⟩ := of_bind_eq_ok hwrite
  obtain ⟨hget, rfl⟩ := StoreM.of_lift_eq_ok hlift
  obtain ⟨data, between, halloc, hwrite⟩ := of_bind_eq_ok hwrite
  obtain ⟨_, between', hvalue, hpair⟩ := of_bind_eq_ok hwrite
  have hdata := StoreM.spans_alloc halloc
  rw [← sizeOf_of_get hget] at halloc hdata
  -- The value goes to new memory first, and then the pair to the slot.
  have hvalue := hinner ⟨e, hget⟩ hdata hvalue
  have hfresh := StoreM.puts_alloc halloc hvalue p.toNat
  have hpair := puts_pair hpointer (hspans.mono (Nat.le_refl _) hfresh.grows) hpair
  have hputs := hfresh.seq hpair (Nat.le_refl _) (Nat.le_add_right _ _) hspans.2
  have hgrows := Nat.le_trans hvalue.grows hpair.grows
  refine hputs.imp fun later hle hread hlimit =>
    ⟨hkind, ⟨e, hget⟩, data, ?_, ?_, hread.1 fun _ => hlimit rfl⟩
  · have hend := hdata.2
    have hlimit := hlimit rfl
    exact hread.2 hfits (by omega)
  · exact (hdata.mono (Nat.le_refl _) (Nat.le_trans hgrows hle)).inBounds

mutual

/-- What is written lies in its slot and in new memory, if all addresses fit into pointers as far as
    the value leads anywhere. -/
theorem puts_write (h : Lawful table) (hpointer : table.target.pointerSize.toNat ≤ 8) {ty : TypeId}
    {p : Word} {before after : Arena} (value : Value) (hty : table.Has ty)
    (hfaithful : value.Faithful table ty)
    (hspans : before.Spans p (table.sizeOf ty).toNat)
    (hwrite : write table fill p ty value before = (.ok (), after)) :
    Puts before after p.toNat (p.toNat + (table.sizeOf ty).toNat) (value.LiesIfFits table ty p) := by
  cases value with
  | bool _ | int _ | uint _ => exact puts_writeNumber h hpointer hty rfl hwrite
  | bytes data =>
    obtain ⟨hlength, hwrite⟩ := of_checked_eq_ok hwrite
    have hputs := StoreM.puts_write hwrite
    rw [hlength] at hputs
    exact hputs.imp fun later _ hread _ => hread _ rfl
  | float32 bits =>
    obtain ⟨hkind, hwrite⟩ := of_checked_eq_ok hwrite
    rw [h.sizeOf_of_layout hty (by rw [hkind]; rfl)]
    have hputs := StoreM.puts_writeWord (by decide) hwrite
    exact hputs.imp fun later _ hread _ =>
      ⟨hkind, Arena.readWord_of_read hread (by decide) (toNat_toUInt64_lt bits)⟩
  | float64 bits =>
    obtain ⟨hkind, hwrite⟩ := of_checked_eq_ok hwrite
    rw [h.sizeOf_of_layout hty (by rw [hkind]; rfl)]
    have hputs := StoreM.puts_writeWord (by decide) hwrite
    exact hputs.imp fun later _ hread _ =>
      ⟨hkind, Arena.readWord_of_read hread (by decide) bits.toNat_lt⟩
  | complex64 re im =>
    obtain ⟨hkind, hwrite⟩ := of_checked_eq_ok hwrite
    rw [h.sizeOf_of_layout hty (by rw [hkind]; rfl)] at hspans ⊢
    have hputs := StoreM.puts_writePair (by decide) hspans hwrite
    exact hputs.imp fun later _ hread _ =>
      ⟨hkind, hread.1 (toNat_toUInt64_lt re), hread.2 (toNat_toUInt64_lt im)⟩
  | complex128 re im =>
    obtain ⟨hkind, hwrite⟩ := of_checked_eq_ok hwrite
    rw [h.sizeOf_of_layout hty (by rw [hkind]; rfl)] at hspans ⊢
    have hputs := StoreM.puts_writePair (by decide) hspans hwrite
    exact hputs.imp fun later _ hread _ => ⟨hkind, hread.1 re.toNat_lt, hread.2 im.toNat_lt⟩
  | string text => exact puts_writeString h hpointer hty hspans hwrite
  | nil =>
    rw [write_nil] at hwrite
    obtain ⟨hkind, hwrite⟩ := of_checked_eq_ok hwrite
    rw [h.toNat_sizeOf_pair hty (.inr hkind)] at hspans ⊢
    have hputs := puts_pair hpointer hspans hwrite
    have hpos : 0 < 256 ^ table.target.pointerSize.toNat := Nat.pow_pos (by decide)
    exact hputs.imp fun later _ hread _ => ⟨hkind, hread hpos hpos⟩
  | interface dynamic value =>
    exact puts_writeInterface h hpointer hty hfaithful.1 hspans hwrite fun hhas hdata hvalue =>
      puts_write h hpointer value hhas hfaithful.2 hdata hvalue
  | list values =>
    obtain ⟨e, hget⟩ := hty
    rw [sizeOf_of_get hget] at hspans ⊢
    rw [Faithful, kind_of_get hget, fields_of_get hget] at hfaithful
    unfold LiesIfFits
    simp only [LiesAt, kind_of_get hget, fields_of_get hget]
    rw [write, kind_of_get hget, fields_of_get hget] at hwrite
    cases hkind : e.kind with
    | array elem len =>
      simp only [hkind] at hwrite hfaithful ⊢
      obtain ⟨hlength, hwrite⟩ := of_checked_eq_ok hwrite
      have hputs := puts_writeElements h hpointer values hget hkind (by omega) hfaithful hspans hwrite
      rw [Nat.zero_mul, Nat.add_zero] at hputs
      exact hputs.imp fun later _ hlie hlimit => ⟨hlength, hlie hlimit⟩
    | struct name members =>
      simp only [hkind] at hwrite hfaithful ⊢
      obtain ⟨hlength, hwrite⟩ := of_checked_eq_ok hwrite
      obtain ⟨stop, hplaced, hsize⟩ := h.placed hget hkind
      have hstop := le_roundUpTo e.align.toNat stop
      have hputs := puts_writeFields h hpointer values hplaced (fun field hf => h.field_has hget hf)
        hfaithful (hspans.mono (by omega) (Nat.le_refl _)) hwrite
      have hlie := hputs.imp fun later _ hlie hlimit => And.intro hlength (hlie hlimit)
      exact hlie.widen (by omega) (by omega)
    | _ =>
      simp only [hkind] at hwrite
      exact (not_of_mismatch hwrite).elim

theorem puts_writeElements (h : Lawful table) (hpointer : table.target.pointerSize.toNat ≤ 8)
    {ty : TypeId} {e : Entry} {p : Word} {before after : Arena} {elem : TypeId} {len : Word} {i : Nat}
    (values : List Value) (hget : table.get ty = .ok e)
    (hkind : e.kind = .array elem len) (hlength : i + values.length = len.toNat)
    (hfaithful : FaithfulElements table elem values) (hspans : before.Spans p e.size.toNat)
    (hwrite : writeElements table fill p elem i values before = (.ok (), after)) :
    Puts before after (p.toNat + i * (table.sizeOf elem).toNat) (p.toNat + e.size.toNat) fun later =>
      (leadAny values = true → later.stop < 256 ^ table.target.pointerSize.toNat) →
        LieFrom table later elem p i values := by
  cases values with
  | nil =>
    cases hwrite
    exact (Puts.refl before _ _).imp fun _ _ _ _ => trivial
  | cons value values =>
    rw [List.length_cons] at hlength
    have hi : i < len.toNat := by omega
    have hend := h.elem_end_le hget hkind (Arena.lt_of_inBounds hspans.inBounds) hi
    obtain ⟨between, htoNat, hpart, hfirst, hrest⟩ :=
      of_writeElements_cons h hget hkind hi hspans hwrite
    -- The first element goes to its own slot, and the others behind it.
    have hfirst := puts_write h hpointer value (h.elem_has hget hkind) hfaithful.1 hpart hfirst
    have hrest := puts_writeElements h hpointer values hget hkind (by omega) hfaithful.2
      (hspans.mono (Nat.le_refl _) hfirst.grows) hrest
    rw [htoNat, Nat.add_assoc, ← Nat.succ_mul] at hfirst
    have hsucc := Nat.succ_mul i (table.sizeOf elem).toNat
    have hboth := hfirst.seq hrest (by omega) (by omega) hspans.2
    exact hboth.imp fun later _ hlie hlimit =>
      ⟨hlie.1 fun hleads => hlimit (leadAny_cons.2 (.inl hleads)),
        hlie.2 fun hleads => hlimit (leadAny_cons.2 (.inr hleads))⟩

theorem puts_writeFields (h : Lawful table) (hpointer : table.target.pointerSize.toNat ≤ 8)
    {p : Word} {before after : Arena} {fields : List Field} {start stop : Nat} (values : List Value)
    (hplaced : table.Placed start fields stop)
    (hhas : ∀ field ∈ fields, table.Has field.ty)
    (hfaithful : FaithfulFields table fields values) (hspans : before.Spans p stop)
    (hwrite : writeFields table fill p fields values before = (.ok (), after)) :
    Puts before after (p.toNat + start) (p.toNat + stop) fun later =>
      (leadAny values = true → later.stop < 256 ^ table.target.pointerSize.toNat) →
        LieWithin table later p fields values := by
  cases fields with
  | nil =>
    have hnil : writeFields table fill p [] values = pure () := by cases values <;> rfl
    rw [hnil] at hwrite
    cases hwrite
    exact (Puts.refl before _ _).imp fun _ _ _ _ => by cases values <;> trivial
  | cons field fields =>
    cases values with
    | nil =>
      cases hwrite
      exact (Puts.refl before _ _).imp fun _ _ _ _ => trivial
    | cons value values =>
      have hstart := hplaced.1
      have hend := hplaced.2.le
      obtain ⟨between, htoNat, hpart, hfirst, hrest⟩ := of_writeFields_cons hplaced hspans hwrite
      -- The first field goes to its own slot, and the others behind it.
      have hfirst := puts_write h hpointer value (hhas field List.mem_cons_self) hfaithful.1 hpart hfirst
      have hrest := puts_writeFields h hpointer values hplaced.2
        (fun field hf => hhas field (List.mem_cons_of_mem _ hf)) hfaithful.2
        (hspans.mono (Nat.le_refl _) hfirst.grows) hrest
      rw [htoNat, Nat.add_assoc] at hfirst
      have hfirst := hfirst.widen (Nat.add_le_add_left hstart p.toNat) (Nat.le_refl _)
      have hboth := hfirst.seq hrest (by omega) (by omega) hspans.2
      exact hboth.imp fun later _ hlie hlimit =>
        ⟨hlie.1 fun hleads => hlimit (leadAny_cons.2 (.inl hleads)),
          hlie.2 fun hleads => hlimit (leadAny_cons.2 (.inr hleads))⟩

end

/-- What is stored lies in new memory, if addresses fit as far as the value leads anywhere. -/
theorem puts_store_of_leads (h : Lawful table) (hpointer : table.target.pointerSize.toNat ≤ 8)
    {value : Value} (hfaithful : value.Faithful table ty)
    (hstore : value.store table fill ty before = (.ok p, after)) (slot : Nat) :
    table.Has ty ∧ after.Spans p (table.sizeOf ty).toNat ∧
      Puts before after slot slot (value.LiesIfFits table ty p) := by
  obtain ⟨e, _, hlift, hstore⟩ := of_bind_eq_ok hstore
  obtain ⟨hget, rfl⟩ := StoreM.of_lift_eq_ok hlift
  obtain ⟨addr, between, halloc, hstore⟩ := of_bind_eq_ok hstore
  obtain ⟨_, between', hwrite, hreturn⟩ := of_bind_eq_ok hstore
  cases hreturn
  have hspans := StoreM.spans_alloc halloc
  rw [← sizeOf_of_get hget] at halloc hspans
  have hvalue := puts_write h hpointer value ⟨e, hget⟩ hfaithful hspans hwrite
  exact ⟨⟨e, hget⟩, hspans.mono (Nat.le_refl _) hvalue.grows, StoreM.puts_alloc halloc hvalue slot⟩

/-- What is stored lies in new memory. -/
theorem puts_store (h : Lawful table) (hpointer : table.target.pointerSize.toNat ≤ 8) {value : Value}
    (hfaithful : value.Faithful table ty)
    (hstore : value.store table fill ty before = (.ok p, after)) (slot : Nat) :
    table.Has ty ∧ after.Spans p (table.sizeOf ty).toNat ∧
      Puts before after slot slot fun later =>
        later.stop < 256 ^ table.target.pointerSize.toNat → value.LiesAt table later ty p := by
  obtain ⟨hty, hspans, hputs⟩ := puts_store_of_leads h hpointer hfaithful hstore slot
  exact ⟨hty, hspans, hputs.imp fun _ _ hlies hlimit => hlies fun _ => hlimit⟩

end Value

end HashEq
