import HashEq.Machine.Primitives

/-!
# Values

A value is stored by laying it out as some type: numbers and pointers as words cut
to the size of the type, strings and interfaces as two words that lead to the
bytes, or to the value, in a piece of memory of their own.

* `Value.store`: puts a value into an arena.
-/

namespace HashEq

/-- A value that can be laid out in memory. Floating-point numbers are given by their bits. -/
inductive Value
  | bool (value : Bool)
  | int (value : Int64)
  | uint (value : Word)
  | float32 (bits : UInt32)
  | float64 (bits : UInt64)
  | complex64 (re im : UInt32)
  | complex128 (re im : UInt64)
  | string (text : String)
  /-- The interface that holds nothing. -/
  | nil
  /-- An interface that holds a value as a type. -/
  | interface (ty : TypeId) (value : Value)
  /-- The elements of an array, or the fields of a struct, blank ones included. -/
  | list (values : List Value)
  /-- The bytes of a value of any type. -/
  | bytes (data : List UInt8)

namespace StoreM

/-- Puts two words of `width` bytes at an address. -/
def writePair (addr width first second : Word) : StoreM Unit := do
  writeWord addr width first
  writeWord (← Word.add addr width) width second

end StoreM

namespace Value

variable (table : TypeTable) (fill : UInt8)

/-- Refuses a value that a type does not have. -/
def mismatch (ty : TypeId) : StoreM Unit := do
  throw (.valueMismatch (← table.text ty))

mutual

/-- Writes a value of type `ty` at an address. -/
def write (addr : Word) (ty : TypeId) : Value → StoreM Unit
  | bytes data =>
    if data.length = (table.sizeOf ty).toNat then StoreM.write addr data else mismatch table ty
  | bool value =>
    if (table.kind ty).isWordLike then StoreM.writeWord addr (table.sizeOf ty) (wordOfBool value)
    else mismatch table ty
  | int value =>
    if (table.kind ty).isWordLike then StoreM.writeWord addr (table.sizeOf ty) value.toUInt64
    else mismatch table ty
  | uint value =>
    if (table.kind ty).isWordLike then StoreM.writeWord addr (table.sizeOf ty) value
    else mismatch table ty
  | float32 bits =>
    if table.kind ty = .float32 then StoreM.writeWord addr 4 bits.toUInt64 else mismatch table ty
  | float64 bits =>
    if table.kind ty = .float64 then StoreM.writeWord addr 8 bits else mismatch table ty
  | complex64 re im =>
    if table.kind ty = .complex64 then StoreM.writePair addr 4 re.toUInt64 im.toUInt64
    else mismatch table ty
  | complex128 re im =>
    if table.kind ty = .complex128 then StoreM.writePair addr 8 re im else mismatch table ty
  | string text =>
    if table.kind ty = .string then do
      -- The bytes get memory of their own, and the two words lead there.
      let data := text.toUTF8.toList
      let len := UInt64.ofNat data.length
      let start ← StoreM.alloc len 1 fill
      StoreM.write start data
      StoreM.writePair addr table.target.pointerSize start len
    else mismatch table ty
  | nil =>
    match table.kind ty with
    | .any | .interface _ => StoreM.writePair addr table.target.pointerSize 0 0
    | _ => mismatch table ty
  | interface dynamic value =>
    match table.kind ty with
    | .any | .interface _ => do
      -- The value gets memory of its own, and its address is written last.
      let e ← table.get dynamic
      let data ← StoreM.alloc e.size e.align fill
      write data dynamic value
      StoreM.writePair addr table.target.pointerSize (typeWord dynamic) data
    | _ => mismatch table ty
  | list values =>
    match table.kind ty with
    | .array elem len =>
      if values.length = len.toNat then writeElements addr elem 0 values else mismatch table ty
    | .struct _ _ =>
      if values.length = (table.fields ty).length then writeFields addr (table.fields ty) values
      else mismatch table ty
    | _ => mismatch table ty

/-- Writes the elements of an array from position `i` on. -/
def writeElements (addr : Word) (elem : TypeId) (i : Nat) : List Value → StoreM Unit
  | [] => return
  | value :: values => do
    let offset ← Word.mul (UInt64.ofNat i) (table.sizeOf elem)
    write (← Word.add addr offset) elem value
    writeElements addr elem (i + 1) values

/-- Writes the fields of a struct. -/
def writeFields (addr : Word) : List Field → List Value → StoreM Unit
  | field :: fields, value :: values => do
    write (← Word.add addr field.offset) field.ty value
    writeFields addr fields values
  | _, _ => return

end

/-- Puts a value of type `ty` into new memory, and answers its address. Bytes between the parts
    are set to `fill`. -/
def store (ty : TypeId) (value : Value) : StoreM Word := do
  let e ← table.get ty
  let addr ← StoreM.alloc e.size e.align fill
  write table fill addr ty value
  return addr

end Value

end HashEq
