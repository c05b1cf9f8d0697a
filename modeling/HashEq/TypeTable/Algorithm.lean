import HashEq.TypeTable.Basic

/-!
# The algorithm of a type

* `TypeTable.algorithm`: the base algorithm of a type, refined for plain memory by
  its size and alignment. Memory that is not aligned well enough for the target
  is never given to a primitive of a fixed width.
-/

namespace HashEq

namespace TypeTable

variable (table : TypeTable)

/-- The algorithm of plain memory of a given size and alignment. -/
def memoryAlgorithm (size align : Word) : Algorithm :=
  if align < table.target.minAlignment ∧ align < size then .varMemory
  else
    match MemoryWidth.ofSize? size with
    | some width => .fixedMemory width
    | none => .varMemory

/-- The algorithm by which values of a type are hashed and compared. -/
def algorithm (ty : TypeId) : Algorithm :=
  match table.base ty with
  | .memory => table.memoryAlgorithm (table.sizeOf ty) (table.alignOf ty)
  | .noEquality => .noEquality
  | .string => .string
  | .interface => .interface
  | .nilInterface => .nilableInterface
  | .float32 => .float32
  | .float64 => .float64
  | .complex64 => .complex64
  | .complex128 => .complex128
  | .special => .custom

end TypeTable

end HashEq
