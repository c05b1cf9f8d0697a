import HashEq.Word

/-!
# Algorithms

How values of a type are compared and hashed. The *base* algorithm of a type
follows from its structure alone; the algorithm proper also takes into account
how wide and how well aligned plain memory is.

* `MemoryWidth.ofSize?`: the width for so many bytes, if there is one.
-/

namespace HashEq

/-- The two things that are done with values. -/
inductive Purpose
  | hash
  | equality
  deriving DecidableEq, Hashable, Repr

/-- The word for a purpose. -/
def Purpose.name : Purpose → String
  | hash => "hash"
  | equality => "equality"

/-- How values of a type are hashed and compared, whatever their size and alignment. -/
inductive BaseAlgorithm
  /-- Byte by byte. -/
  | memory
  /-- Not at all. -/
  | noEquality
  | string
  /-- An interface with methods. -/
  | interface
  /-- The empty interface. -/
  | nilInterface
  | float32
  | float64
  | complex64
  | complex128
  /-- By a generated function. -/
  | special
  deriving DecidableEq, Repr

/-- The short name of a base algorithm. -/
def BaseAlgorithm.name : BaseAlgorithm → String
  | memory => "Mem"
  | noEquality => "NoEq"
  | string => "String"
  | interface => "Interface"
  | nilInterface => "NilInterface"
  | float32 => "Float32"
  | float64 => "Float64"
  | complex64 => "Complex64"
  | complex128 => "Complex128"
  | special => "Special"

/-- The widths of plain memory that have primitives of their own. -/
inductive MemoryWidth
  | w0
  | w8
  | w16
  | w32
  | w64
  | w128
  deriving DecidableEq, Hashable, Repr

namespace MemoryWidth

/-- All widths, from the narrowest on. -/
def all : List MemoryWidth := [w0, w8, w16, w32, w64, w128]

/-- The bits of a width. -/
def bits : MemoryWidth → Nat
  | w0 => 0
  | w8 => 8
  | w16 => 16
  | w32 => 32
  | w64 => 64
  | w128 => 128

/-- The bytes of a width. -/
def bytes : MemoryWidth → Word
  | w0 => 0
  | w8 => 1
  | w16 => 2
  | w32 => 4
  | w64 => 8
  | w128 => 16

/-- The width of exactly `size` bytes. -/
def ofSize? (size : Word) : Option MemoryWidth :=
  all.find? (·.bytes == size)

/-- The name of a width. -/
def name (width : MemoryWidth) : String :=
  "W" ++ toString width.bits

theorem bytes_of_ofSize? {size : Word} {width : MemoryWidth} (h : ofSize? size = some width) :
    width.bytes = size := by
  have hw := List.find?_some h
  exact eq_of_beq hw

end MemoryWidth

/-- The algorithm by which values of a type are hashed and compared. -/
inductive Algorithm
  /-- Plain memory of a width that has a primitive. -/
  | fixedMemory (width : MemoryWidth)
  /-- Plain memory of any other size, or too weakly aligned for a fixed width. -/
  | varMemory
  | string
  | interface
  | nilableInterface
  | float32
  | float64
  | complex64
  | complex128
  /-- No equality, hence no hash either. -/
  | noEquality
  /-- A generated function. -/
  | custom
  deriving DecidableEq, Repr

namespace Algorithm

/-- All algorithms. -/
def all : List Algorithm :=
  MemoryWidth.all.map fixedMemory ++
    [varMemory, string, interface, nilableInterface, float32, float64, complex64, complex128,
      noEquality, custom]

/-- The name of an algorithm. -/
def name : Algorithm → String
  | fixedMemory width => "FixedMem(" ++ width.name ++ ")"
  | varMemory => "VarMem"
  | string => "String"
  | interface => "Interface"
  | nilableInterface => "NilableInterface"
  | float32 => "Float32"
  | float64 => "Float64"
  | complex64 => "Complex64"
  | complex128 => "Complex128"
  | noEquality => "NoEquality"
  | custom => "Custom"

end Algorithm

end HashEq
