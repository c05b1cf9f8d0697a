import HashEq.RequestError
import HashEq.TypeId

/-!
# Failed evaluations

Why running code, or accessing memory, ends without an answer.

* `EvalError.message`: the wording.
-/

namespace HashEq

/-- What is wrong with code that cannot be run, or with the words that it works on. -/
inductive Malformed
  /-- A word that should tell the type of the value in an interface tells none. -/
  | typeWord (word : Word)
  /-- A primitive is called with the wrong number of arguments. -/
  | primitiveArity (symbol : String) (arity count : Nat)
  /-- A generated function is called with the wrong number of arguments. -/
  | argumentCount (params count : Nat)
  /-- A closure carries a size for a function that takes none. -/
  | payload (symbol : String)
  /-- The statements of a function end without a return. -/
  | endOfBody
  /-- A return without a value in a function without a named result. -/
  | noResult
  | noVariable (id : Nat)
  /-- A jump goes to a label inside another statement. -/
  | nestedLabel (name : String)
  | notAPlace
  /-- A place that does not fit into a word is used as one. -/
  | widePlace (size : Word)
  /-- Values of different types are compared. -/
  | differentTypes
  /-- Values are compared in place whose type does not allow it. -/
  | inlineEquality (base : BaseAlgorithm)
  | noField (index : Nat) (ty : TypeId)
  deriving DecidableEq, Repr

/-- A number in hexadecimal digits. -/
def hexText (n : Nat) : String :=
  "0x" ++ String.ofList (Nat.toDigits 16 n)

/-- The wording of what is wrong. -/
def Malformed.message : Malformed → String
  | typeWord word => "bad interface type word " ++ hexText word.toNat
  | primitiveArity symbol arity count =>
    symbol ++ " takes " ++ toString arity ++ " arguments, got " ++ toString count
  | argumentCount params count =>
    "expected " ++ toString params ++ " arguments, got " ++ toString count
  | payload symbol => "closure over " ++ symbol ++ " cannot carry a size"
  | endOfBody => "control reached end of function"
  | noResult => "bare return without result"
  | noVariable id => "no local " ++ toString id
  | nestedLabel name => "label " ++ name ++ " is not at top level"
  | notAPlace => "expression is not a place"
  | widePlace size => toString size.toNat ++ "-byte place used as a word"
  | differentTypes => "== on places of different types"
  | inlineEquality base => "inline == on " ++ base.name ++ " place"
  | noField index ty => "no field " ++ toString index ++ " in type#" ++ toString ty.raw.toNat

/-- Why an evaluation ends without an answer. -/
inductive EvalError
  /-- The program panics. -/
  | panic (text : String)
  | request (error : RequestError)
  | outOfBounds (addr len : Word)
  | indexOutOfRange (index len : Word)
  | unknownFunction (symbol : String)
  /-- A value is stored as a type that has no such values. -/
  | valueMismatch (ty : String)
  | malformed (cause : Malformed)
  | fault (fault : Fault)
  deriving DecidableEq, Repr

namespace EvalError

/-- The wording of a failure. -/
def message : EvalError → String
  | panic text => "panic: " ++ text
  | request error => error.message
  | outOfBounds addr len =>
    "memory access out of bounds: " ++ toString len.toNat ++ " bytes at " ++ hexText addr.toNat
  | indexOutOfRange index len =>
    "index " ++ toString index.toNat ++ " out of range [0, " ++ toString len.toNat ++ ")"
  | unknownFunction symbol => "unknown generated function " ++ symbol
  | valueMismatch ty => "value does not fit type " ++ ty
  | malformed cause => "malformed generated code: " ++ cause.message
  | fault f => f.message

/-- A refused request as a failure. -/
def ofRequest : RequestError → EvalError
  | .fault f => fault f
  | error => request error

/-- The panic of hashing a value whose type has no equality. -/
def unhashable (ty : String) : EvalError :=
  panic ("hash of unhashable type " ++ ty)

/-- The panic of comparing values whose type has no equality. -/
def uncomparable (ty : String) : EvalError :=
  panic ("comparing uncomparable type " ++ ty)

/-- A fault stops an evaluation as well. -/
instance : MonadLift (Except Fault) (Except EvalError) where
  monadLift := Except.mapError fault

end EvalError

end HashEq
