import HashEq.Word

/-!
# Type numbers

Types are known by 32-bit numbers. The first seventeen are the primitive types, in
a fixed order; the numbers up to 31 are kept free; the types that a program adds
follow from 32 on. The *slot* of a type is its position when the free numbers are
left out.

* `TypeId.raw_of_slot`: a number that has a slot is the number of that slot.
-/

namespace HashEq

/-- The number of a type. -/
structure TypeId where
  raw : UInt32
  deriving DecidableEq, Hashable, Repr, Inhabited

namespace TypeId

/-- The names of the primitive types, in the order of their numbers. -/
def primitiveNames : List String :=
  ["bool", "int8", "int16", "int32", "int64", "uint8", "uint16", "uint32", "uint64", "uintptr",
    "float32", "float64", "complex64", "complex128", "string", "unsafe.Pointer",
    "interface \x7b\x7d"]

/-- The number of primitive types. -/
def primitiveCount : Nat := 17

/-- The first number of a type that a program adds. -/
def firstAdded : Nat := 32

/-- The number that stands for no type. -/
def none : TypeId := ⟨0xFFFFFFFF⟩

/-- The type with a given number; the numbers kept free belong to no type. -/
def ofNumber? (n : Nat) : Option TypeId :=
  if n < primitiveCount ∨ firstAdded ≤ n ∧ n < UInt32.size then some ⟨UInt32.ofNat n⟩
  else Option.none

/-- The number of a primitive type, by name. -/
def ofName? (name : String) : Option TypeId :=
  (primitiveNames.findIdx? (· == name)).map fun i => ⟨UInt32.ofNat i⟩

/-- The name of a primitive type. -/
def name? (ty : TypeId) : Option String :=
  primitiveNames[ty.raw.toNat]?

/-- Whether this is the number of a primitive type. -/
def isPrimitive (ty : TypeId) : Bool :=
  ty.raw.toNat < primitiveCount

/-- Whether this number stands for no type. -/
def isNone (ty : TypeId) : Bool :=
  ty == none

/-- A type number as it is shown in messages. -/
def displayText (ty : TypeId) : String :=
  match ty.name? with
  | some name => name
  | Option.none => if ty.isNone then "<none>" else "type#" ++ toString ty.raw.toNat

/-- A type number as it is shown to a person who debugs. -/
def debugText (ty : TypeId) : String :=
  match ty.name? with
  | some name => "Idx(" ++ name ++ ")"
  | Option.none => if ty.isNone then "Idx::NONE" else "Idx(" ++ toString ty.raw.toNat ++ ")"

/-- The number of the type in a slot. -/
def numberOfSlot (slot : Nat) : Nat :=
  if slot < primitiveCount then slot else slot + (firstAdded - primitiveCount)

/-- The type in a slot; the slots go as far as 32-bit numbers do. -/
def ofSlot (slot : Nat) : Except Fault TypeId :=
  if numberOfSlot slot < UInt32.size then .ok ⟨UInt32.ofNat (numberOfSlot slot)⟩
  else .error .overflow

/-- The slot of a type; the numbers kept free have none. -/
def slot (ty : TypeId) : Except Fault Nat :=
  if ty.raw.toNat < primitiveCount then .ok ty.raw.toNat
  else if ty.raw.toNat < firstAdded then .error .overflow
  else .ok (ty.raw.toNat - (firstAdded - primitiveCount))

theorem numberOfSlot_lt {i j : Nat} (h : i < j) : numberOfSlot i < numberOfSlot j := by
  unfold numberOfSlot firstAdded primitiveCount
  split <;> split <;> omega

theorem raw_of_slot {ty : TypeId} {i : Nat} (h : ty.slot = .ok i) :
    ty.raw.toNat = numberOfSlot i := by
  grind [slot, numberOfSlot, firstAdded, primitiveCount]

theorem slot_of_ofSlot {ty : TypeId} {i : Nat} (h : ofSlot i = .ok ty) : ty.slot = .ok i := by
  have hlt : numberOfSlot i < UInt32.size := by
    unfold ofSlot at h
    by_cases hlt : numberOfSlot i < UInt32.size
    · exact hlt
    · rw [if_neg hlt] at h
      cases h
  have hraw : ty.raw.toNat = numberOfSlot i := by
    simp only [ofSlot, if_pos hlt, Except.ok.injEq] at h
    rw [← h]
    exact UInt32.toNat_ofNat_of_lt' hlt
  grind [slot, numberOfSlot, firstAdded, primitiveCount]

end TypeId

end HashEq
