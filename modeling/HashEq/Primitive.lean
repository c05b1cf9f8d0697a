import HashEq.Algorithm

/-!
# Primitives

The primitives are the hash and equality functions that need not be generated,
as every program brings them along. Each is an operation for a purpose.

* `Primitive.ofAlgorithm?`: the primitive that implements an algorithm;
* `Primitive.ofName?_name`: primitives have different names.
-/

namespace HashEq

/-- What a primitive hashes or compares. -/
inductive Operation
  /-- Memory of a fixed width. -/
  | fixedMemory (width : MemoryWidth)
  /-- Memory of a size that the closure over the primitive carries. -/
  | varMemory
  /-- Memory of a size that the caller passes. -/
  | memory
  | string
  | interface
  | nilInterface
  | float32
  | float64
  | complex64
  | complex128
  deriving DecidableEq, Hashable, Repr

namespace Operation

/-- All operations. -/
def all : List Operation :=
  MemoryWidth.all.map fixedMemory ++
    [varMemory, memory, string, interface, nilInterface, float32, float64, complex64, complex128]

/-- The name of an operation, around the verb that tells the purpose. -/
def name (verb : String) : Operation → String
  | fixedMemory width => "mem" ++ verb ++ toString width.bits
  | varMemory => "mem" ++ verb ++ "_varlen"
  | memory => "mem" ++ verb
  | string => "str" ++ verb
  | interface => "inter" ++ verb
  | nilInterface => "nilinter" ++ verb
  | float32 => "f32" ++ verb
  | float64 => "f64" ++ verb
  | complex64 => "c64" ++ verb
  | complex128 => "c128" ++ verb

/-- Whether the size is passed among the arguments. -/
def takesSize : Operation → Bool
  | varMemory | memory => true
  | _ => false

/-- The width that an operation is fixed to. -/
def fixedWidth? : Operation → Option Word
  | fixedMemory width => some width.bytes
  | _ => none

/-- The operation that implements an algorithm, if the algorithm has one. -/
def ofAlgorithm? : Algorithm → Option Operation
  | .fixedMemory width => some (fixedMemory width)
  | .varMemory => some varMemory
  | .string => some string
  | .interface => some interface
  | .nilableInterface => some nilInterface
  | .float32 => some float32
  | .float64 => some float64
  | .complex64 => some complex64
  | .complex128 => some complex128
  | .noEquality | .custom => none

end Operation

/-- A hash or equality function that every program brings along. -/
structure Primitive where
  purpose : Purpose
  operation : Operation
  deriving DecidableEq, Hashable, Repr

/-- What a primitive takes and answers: `p` and `q` are addresses of values, `h` is a hash state. -/
inductive Contract
  /-- From `p` and `h` to the next hash state. -/
  | hash
  /-- From `p`, a size and `h` to the next hash state. -/
  | hashSized
  /-- From `p` and `q` to zero or one. -/
  | equal
  /-- From `p`, `q` and a size to zero or one. -/
  | equalSized
  deriving DecidableEq, Repr

namespace Contract

/-- The name of a contract. -/
def name : Contract → String
  | hash => "Hash"
  | hashSized => "HashSized"
  | equal => "Equal"
  | equalSized => "EqualSized"

/-- The number of arguments. -/
def arity : Contract → Nat
  | hash | equal => 2
  | hashSized | equalSized => 3

end Contract

namespace Primitive

/-- All primitives. -/
def all : List Primitive :=
  Operation.all.map (⟨.hash, ·⟩) ++ Operation.all.map (⟨.equality, ·⟩)

/-- The name of a primitive. -/
def name (primitive : Primitive) : String :=
  primitive.operation.name (match primitive.purpose with | .hash => "hash" | .equality => "equal")

/-- The primitive of a given name. -/
def ofName? (name : String) : Option Primitive :=
  all.find? (·.name == name)

/-- The symbol of a primitive. -/
def symbol (primitive : Primitive) : String :=
  "runtime." ++ primitive.name

/-- The symbol of the closure over a primitive that carries no size. -/
def closureSymbol (primitive : Primitive) : String :=
  primitive.symbol ++ "·f"

/-- What a primitive takes and answers. -/
def contract (primitive : Primitive) : Contract :=
  match primitive.purpose, primitive.operation.takesSize with
  | .hash, false => .hash
  | .hash, true => .hashSized
  | .equality, false => .equal
  | .equality, true => .equalSized

/-- The primitive that implements an algorithm. -/
def ofAlgorithm? (algorithm : Algorithm) (purpose : Purpose) : Option Primitive :=
  (Operation.ofAlgorithm? algorithm).map (⟨purpose, ·⟩)

/-- Whether a closure over the primitive has to carry the size of the values. -/
def carriesSize (primitive : Primitive) : Bool :=
  primitive.operation == .varMemory

theorem mem_all (primitive : Primitive) : primitive ∈ all := by
  obtain ⟨purpose, operation⟩ := primitive
  cases purpose <;> cases operation <;> first | decide | (next width => cases width <;> decide)

theorem ofName?_name (primitive : Primitive) : ofName? primitive.name = some primitive := by
  have h : ∀ primitive ∈ all, ofName? primitive.name = some primitive := by decide +kernel
  exact h primitive (mem_all primitive)

end Primitive

end HashEq
