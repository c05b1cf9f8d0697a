import HashEq.Algorithm

/-!
# Refused requests

Why hash or equality code for a type is refused. Types appear by their texts.

* `RequestError.message`: the wording.
-/

namespace HashEq

/-- Why a request for hash or equality code is refused. -/
inductive RequestError
  /-- A hash for a type without equality. -/
  | noHash (ty : String)
  /-- A hash function for plain memory, which has none of its own. -/
  | hashForMemory (ty : String)
  /-- A generated function for a type that is neither a struct nor an array. -/
  | notAggregate (ty : String) (purpose : Purpose)
  /-- A generated function for a type that a primitive takes care of. -/
  | notCustom (ty : String) (purpose : Purpose) (algorithm : Algorithm)
  /-- An equality function for a type that is compared in place. -/
  | noDirectEquality (ty : String) (base : BaseAlgorithm)
  /-- A comparison of parts that have no equality. -/
  | uncomparable (ty : String)
  | fault (fault : Fault)
  deriving DecidableEq, Repr

namespace RequestError

/-- The wording of a refusal. -/
def message : RequestError → String
  | noHash ty => "hash requested for type " ++ ty ++ ", which has no equality"
  | hashForMemory ty => "hash_for called on plain-memory type " ++ ty
  | notAggregate ty purpose =>
    "cannot synthesize " ++ purpose.name ++ " for " ++ ty ++ ": not a struct or array"
  | notCustom ty purpose algorithm =>
    "cannot synthesize " ++ purpose.name ++ " for " ++ ty ++ ": it classifies as " ++ algorithm.name
  | noDirectEquality ty base =>
    "type " ++ ty ++ " has no direct equality callee (algorithm " ++ base.name ++ ")"
  | uncomparable ty => "element or field type " ++ ty ++ " has no equality"
  | fault f => f.message

/-- A fault stops a request as well. -/
instance : MonadLift (Except Fault) (Except RequestError) where
  monadLift := Except.mapError fault

end RequestError

end HashEq
