import HashEq.TypeId

/-!
# Kinds of types

The kind of a type says how it is put together from other types, which it names
by their numbers. Two types are the same exactly when their kinds are.
-/

namespace HashEq

/-- A field as it is declared; a blank field has no name. -/
structure Member where
  name : Option String
  ty : TypeId
  deriving DecidableEq, Hashable, Repr

/-- A field with its place in the struct. -/
structure Field extends Member where
  /-- Bytes from the start of the struct. -/
  offset : Word
  deriving DecidableEq, Hashable, Repr

/-- Whether a field is blank: it takes up room, but is neither hashed nor compared. -/
def Field.isBlank (field : Field) : Bool :=
  field.name.isNone

/-- How a type is put together. -/
inductive Kind
  | bool
  | int8
  | int16
  | int32
  | int64
  | uint8
  | uint16
  | uint32
  | uint64
  | uintptr
  | float32
  | float64
  | complex64
  | complex128
  | string
  | unsafePointer
  /-- The empty interface, which holds a value of any type, or nil. -/
  | any
  | pointer (elem : TypeId)
  | chan (elem : TypeId)
  | slice (elem : TypeId)
  | map (key value : TypeId)
  | func (params results : List TypeId)
  /-- An interface with methods, known by its name. -/
  | interface (name : String)
  | array (elem : TypeId) (len : Word)
  /-- A struct, declared under a name or written out in place. -/
  | struct (name : Option String) (members : List Member)
  /-- Plain memory of a given size and alignment. -/
  | opaqueMemory (size align : Word)
  deriving DecidableEq, Hashable, Repr

namespace Kind

/-- The kinds of the primitive types, in the order of their numbers. -/
def primitives : List Kind :=
  [bool, int8, int16, int32, int64, uint8, uint16, uint32, uint64, uintptr, float32, float64,
    complex64, complex128, string, unsafePointer, any]

/-- The name of a kind. -/
def name : Kind → String
  | bool => "Bool"
  | int8 => "Int8"
  | int16 => "Int16"
  | int32 => "Int32"
  | int64 => "Int64"
  | uint8 => "Uint8"
  | uint16 => "Uint16"
  | uint32 => "Uint32"
  | uint64 => "Uint64"
  | uintptr => "Uintptr"
  | float32 => "Float32"
  | float64 => "Float64"
  | complex64 => "Complex64"
  | complex128 => "Complex128"
  | string => "String"
  | unsafePointer => "UnsafePointer"
  | any => "Any"
  | pointer _ => "Pointer"
  | chan _ => "Chan"
  | slice _ => "Slice"
  | map _ _ => "Map"
  | func _ _ => "Func"
  | interface _ => "Interface"
  | array _ _ => "Array"
  | struct _ _ => "Struct"
  | opaqueMemory _ _ => "Opaque"

/-- The name under which a struct is declared. -/
def structName? : Kind → Option String
  | struct name _ => name
  | _ => none

/-- The element type of an array. -/
def elem? : Kind → Option TypeId
  | array elem _ => some elem
  | _ => none

/-- Whether values are single words of some width: truth values, integers, pointers. -/
def isWordLike : Kind → Bool
  | bool | int8 | int16 | int32 | int64 | uint8 | uint16 | uint32 | uint64 | uintptr
  | unsafePointer | pointer _ | chan _ => true
  | _ => false

end Kind

end HashEq
