import HashEq.Code.Function
import HashEq.Synthesis.Conditions

/-!
# Closures

A closure is a read-only record for indirect calls: one word for the code,
followed, for memory of variable size, by the size of the values.

* `ClosureKey`: which closures are shared.
-/

namespace HashEq

/-- The attributes of a record in the data of a program. -/
structure DataFlags where
  /-- Identical copies may be merged. -/
  mergeable : Bool
  /-- It is never written. -/
  readOnly : Bool
  deriving DecidableEq, Repr

/-- The names of the attributes that are set. -/
def DataFlags.names (flags : DataFlags) : List String :=
  [(flags.mergeable, "DUPOK"), (flags.readOnly, "RODATA")].filterMap fun (set, name) =>
    if set then some name else none

/-- A record through which a function is called. -/
structure Closure where
  symbol : String
  target : Callee
  /-- The size that is passed to the target among its arguments. -/
  payload : Option Word
  /-- The bytes of the record. -/
  size : Word
  flags : DataFlags
  deriving DecidableEq, Repr

/-- What a closure is shared by. -/
inductive ClosureKey
  /-- All types that the primitive takes care of. -/
  | primitive (primitive : Primitive)
  /-- All types of plain memory of a size. -/
  | varMemory (purpose : Purpose) (size : Word)
  /-- One type, for which a function is generated. -/
  | generated (ty : TypeId) (purpose : Purpose)
  deriving DecidableEq, Hashable, Repr

namespace Closure

/-- A closure on a target with pointers of `pointerSize` bytes. -/
def make (pointerSize : Word) (symbol : String) (target : Callee) (payload : Option Word) :
    Except Fault Closure := do
  let size ← Word.mul (if payload.isSome then 2 else 1) pointerSize
  return { symbol, target, payload, size, flags := ⟨true, true⟩ }

/-- How the symbols of closures for a purpose start. -/
def stem : Purpose → String
  | .hash => ".hashfunc"
  | .equality => ".eqfunc"

/-- The symbol of the closure over a generated function, given the text of the type. -/
def symbolOfText (purpose : Purpose) (text : String) : String :=
  stem purpose ++ "." ++ text

/-- The symbol of the closure for plain memory of a size. -/
def symbolOfSize (purpose : Purpose) (size : Word) : String :=
  stem purpose ++ toString size.toNat

end Closure

end HashEq
