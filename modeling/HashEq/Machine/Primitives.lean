import HashEq.Arena
import HashEq.FloatFormat
import HashEq.Session

/-!
# Running primitives

The primitives hash and compare what lies in an arena. Those for interfaces look
at the type of the value inside and go on with the closure for that type, which
is built if need be.

* `blockHash`: the hash of bytes, which can be taken piece by piece;
* `Primitives.run`: runs a primitive on argument words.
-/

namespace HashEq

/-- An evaluation: code that it needs is generated on the way, and stays. -/
abbrev EvalM := ExceptT EvalError (StateM Session)

/-- A request made during an evaluation. -/
def EvalM.ofRequest {α : Type} (request : SessionM α) : EvalM α :=
  ExceptT.adapt EvalError.ofRequest request

/-- The factor of the byte hash. -/
def hashPrime : Word := 0x100000001B3

/-- The constants that mix zeros and interfaces into a hash. -/
def mixIn : Word := 33054211828000289
@[inherit_doc mixIn] def mixOut : Word := 23344194077549503

/-- The hash of bytes, from the hash state `seed` on: every byte is mixed in and spread by a
    multiplication, which wraps. -/
def blockHash (bytes : List UInt8) (seed : Word) : Word :=
  bytes.foldl (fun h byte => (h ^^^ byte.toUInt64) * hashPrime) seed

/-- Hashing can stop between two bytes and go on from there. -/
theorem blockHash_append (a b : List UInt8) (seed : Word) :
    blockHash (a ++ b) seed = blockHash b (blockHash a seed) :=
  List.foldl_append

/-- A truth value as a word. -/
def wordOfBool (b : Bool) : Word :=
  if b then 1 else 0

/-- The word by which an interface tells the type of its value; zero tells that it is nil. -/
def typeWord (ty : TypeId) : Word :=
  ty.raw.toUInt64 + 1

/-- The type that a word tells. -/
def typeOfWord (word : Word) : Except EvalError TypeId :=
  let told :=
    match word.toNat with
    | 0 => none
    | number + 1 => TypeId.ofNumber? number
  match told with
  | some ty => .ok ty
  | none => .error (.malformed (.typeWord word))

namespace Primitives

variable (table : TypeTable) (arena : Arena)

/-- The word at an address, as wide as a pointer. -/
def loadWord (p : Word) : Except EvalError Word :=
  arena.readWord p table.target.pointerSize

/-- The two words at an address: of a string the address of its bytes and its length, of an
    interface the word for the type and the address of the value. -/
def loadPair (p : Word) : Except EvalError (Word × Word) := do
  let first ← loadWord table arena p
  let second ← loadWord table arena (← Word.add p table.target.pointerSize)
  return (first, second)

/-- Hashes `size` bytes. -/
def memoryHash (p size h : Word) : Except EvalError Word :=
  return blockHash (← arena.read p size) h

/-- Hashes the bytes of a string. -/
def stringHash (p h : Word) : Except EvalError Word := do
  let (data, len) ← loadPair table arena p
  memoryHash arena data len h

/-- Hashes a floating-point number; the two zeros, which are equal, hash alike. -/
def floatHash (format : FloatFormat) (p h : Word) : Except EvalError Word := do
  let bits ← arena.readWord p format.width
  if format.isZero bits then return mixOut * (mixIn ^^^ h) else memoryHash arena p format.width h

/-- Hashes a complex number, the real part first. -/
def complexHash (format : FloatFormat) (p h : Word) : Except EvalError Word := do
  let h ← floatHash arena format p h
  floatHash arena format (← Word.add p format.width) h

/-- Compares `size` bytes. -/
def memoryEqual (p q size : Word) : Except EvalError Bool := do
  let a ← arena.read p size
  let b ← arena.read q size
  return a == b

/-- Compares strings, their bytes only if they are equally long. -/
def stringEqual (p q : Word) : Except EvalError Bool := do
  let (pData, pLen) ← loadPair table arena p
  let (qData, qLen) ← loadPair table arena q
  if pLen = qLen then memoryEqual arena pData qData pLen else return false

/-- Compares floating-point numbers. -/
def floatEqual (format : FloatFormat) (p q : Word) : Except EvalError Bool := do
  let a ← arena.readWord p format.width
  let b ← arena.readWord q format.width
  return format.equal a b

/-- Compares complex numbers, the imaginary parts only if the real parts are equal. -/
def complexEqual (format : FloatFormat) (p q : Word) : Except EvalError Bool := do
  if ← floatEqual arena format p q then
    let p ← Word.add p format.width
    let q ← Word.add q format.width
    floatEqual arena format p q
  else return false

/-- How a closure with a target and a payload is called. -/
abbrev Caller := Callee → Option Word → List Word → EvalM Word

variable (call : Caller)

/-- Hashes an interface by the closure for the type of its value; nil leaves the state as it is. -/
def interfaceHash (p h : Word) : EvalM Word := do
  let (word, data) ← loadPair table arena p
  if word = 0 then return h
  let ty ← typeOfWord word
  let _ ← table.get ty
  if table.algorithm ty = .noEquality then
    throw (.unhashable (← table.text ty))
  let closure ← EvalM.ofRequest (Session.hashClosure table ty)
  return mixOut * (← call closure.target closure.payload [data, h ^^^ mixIn])

/-- Compares interfaces. Those that hold values of different types differ; values of one type are
    compared by its closure, which it must have. -/
def interfaceEqual (p q : Word) : EvalM Bool := do
  let (pWord, pData) ← loadPair table arena p
  let (qWord, qData) ← loadPair table arena q
  if pWord ≠ qWord then return false
  if pWord = 0 then return true
  let ty ← typeOfWord pWord
  match ← EvalM.ofRequest (Session.equalityClosure table ty) with
  | none => throw (.uncomparable (← table.text ty))
  | some closure => return (← call closure.target closure.payload [pData, qData]) != 0

/-- Runs a primitive. Equality answers zero or one. -/
def run (primitive : Primitive) (args : List Word) : EvalM Word :=
  match primitive.purpose, primitive.operation, args with
  | .hash, .fixedMemory width, [p, h] => memoryHash arena p width.bytes h
  | .hash, .varMemory, [p, size, h] => memoryHash arena p size h
  | .hash, .memory, [p, size, h] => memoryHash arena p size h
  | .hash, .string, [p, h] => stringHash table arena p h
  | .hash, .interface, [p, h] => interfaceHash table arena call p h
  | .hash, .nilInterface, [p, h] => interfaceHash table arena call p h
  | .hash, .float32, [p, h] => floatHash arena .single p h
  | .hash, .float64, [p, h] => floatHash arena .double p h
  | .hash, .complex64, [p, h] => complexHash arena .single p h
  | .hash, .complex128, [p, h] => complexHash arena .double p h
  | .equality, .fixedMemory width, [p, q] => wordOfBool <$> memoryEqual arena p q width.bytes
  | .equality, .varMemory, [p, q, size] => wordOfBool <$> memoryEqual arena p q size
  | .equality, .memory, [p, q, size] => wordOfBool <$> memoryEqual arena p q size
  | .equality, .string, [p, q] => wordOfBool <$> stringEqual table arena p q
  | .equality, .interface, [p, q] => wordOfBool <$> interfaceEqual table arena call p q
  | .equality, .nilInterface, [p, q] => wordOfBool <$> interfaceEqual table arena call p q
  | .equality, .float32, [p, q] => wordOfBool <$> floatEqual arena .single p q
  | .equality, .float64, [p, q] => wordOfBool <$> floatEqual arena .double p q
  | .equality, .complex64, [p, q] => wordOfBool <$> complexEqual arena .single p q
  | .equality, .complex128, [p, q] => wordOfBool <$> complexEqual arena .double p q
  | _, _, args =>
    throw (.malformed (.primitiveArity primitive.symbol primitive.contract.arity args.length))

end Primitives

end HashEq
