import HashEq.Synthesis.Conditions

/-!
# Hash functions

A generated hash function passes a hash state through the named fields of a struct,
or through the elements of an array. Runs of plain memory are hashed as one
block; every other part is hashed by the function for its type.

* `TypeTable.hashFunction`: the hash function of a type.
-/

namespace HashEq

namespace HashCode

/-- The variables of a hash function: the address, the hash state, and, for an array, the
    counter. -/
def p : Nat := 0
@[inherit_doc p] def h : Nat := 1
@[inherit_doc p] def i : Nat := 2

end HashCode

open HashCode

namespace TypeTable

variable (table : TypeTable)

/-- What hashes values of a type that are not plain memory. -/
def hashCallee (ty : TypeId) : Except RequestError Callee :=
  match table.base ty with
  | .memory => do throw (.hashForMemory (← table.text ty))
  | .noEquality => do throw (.noHash (← table.text ty))
  | .interface => return .primitive ⟨.hash, .interface⟩
  | .nilInterface => return .primitive ⟨.hash, .nilInterface⟩
  | .string => return .primitive ⟨.hash, .string⟩
  | .float32 => return .primitive ⟨.hash, .float32⟩
  | .float64 => return .primitive ⟨.hash, .float64⟩
  | .complex64 => return .primitive ⟨.hash, .complex64⟩
  | .complex128 => return .primitive ⟨.hash, .complex128⟩
  | .special => return .generated (← table.symbolOf .hash ty)

/-- Hashes every element of an array in a loop. -/
def hashElements (ty elem : TypeId) (len : Word) : Except RequestError (List Stmt) := do
  let callee ← table.hashCallee elem
  let element : Expr := .elem (.deref (.var p) ty) (.var i) elem
  return [.loop (some (.assign i (.const 0))) (.binary .lt (.var i) (.const len))
    (some (.assign i (.binary .add (.var i) (.const 1))))
    [.assign h (.call callee [.addr element, .var h])]]

/-- The field after the last one that is hashed together with field `i`. -/
def hashedUpTo (ty : TypeId) (i : Nat) : Nat :=
  match (table.fields ty)[i]? with
  | some field => if table.isMemory field.ty then (table.memoryRun ty i).next else i + 1
  | none => i + 1

/-- Hashes a field, together with the run of plain memory that it starts. -/
def hashField (ty : TypeId) (field : Field) (i : Nat) : Except RequestError Stmt := do
  let start : Expr := .addr (.field (.deref (.var p) ty) ty i)
  if table.isMemory field.ty then
    return .assign h (.call (.primitive ⟨.hash, .memory⟩)
      [start, .const (table.memoryRun ty i).size, .var h])
  else
    return .assign h (.call (← table.hashCallee field.ty) [start, .var h])

/-- The fields of a struct that are hashed alone or start a run. -/
def hashedFields (ty : TypeId) : List (Field × Nat) :=
  leaders (table.hashedUpTo ty) 0 (table.fields ty).zipIdx

/-- The body of the hash function of a type, as far as the final state. -/
def hashSteps (ty : TypeId) : Except RequestError (List Stmt) := do
  match table.kind ty with
  | .array elem len => table.hashElements ty elem len
  | .struct _ _ => (table.hashedFields ty).mapM fun (field, i) => table.hashField ty field i
  | _ => throw (.notAggregate (← table.text ty) .hash)

/-- The hash function of a type. -/
def hashFunction (ty : TypeId) : Except RequestError Function := do
  let symbol ← table.symbolOf .hash ty
  let steps ← table.hashSteps ty
  let counter : List Var := if (table.arrayElem? ty).isSome then [⟨"i", .int⟩] else []
  return {
    symbol, ty
    purpose := .hash
    vars := [⟨"p", .pointer ty⟩, ⟨"h", .uintptr⟩] ++ counter
    params := 2
    result := none
    labels := []
    body := steps ++ [.ret (some (.var h))]
    flags := .synthesized }

end TypeTable

end HashEq
