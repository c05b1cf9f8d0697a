import HashEq.Machine.Interpreter

/-!
# Structural comparison

Values can be compared and hashed without generated code, by walking their types:
every named field and every element in turn, and the value in an interface in
the same way. Generated code does the same with fewer, larger steps.

* `Structural.equal`, `Structural.hash`: the walk over two values, and over one.
-/

namespace HashEq

namespace Structural

/-- Whether a check holds at `n` positions from `i` on; it stops at the first where it does
    not. -/
def allFrom {ε : Type} (check : Nat → Except ε Bool) (i : Nat) : Nat → Except ε Bool
  | 0 => .ok true
  | n + 1 =>
    match check i with
    | .ok true => allFrom check (i + 1) n
    | other => other

/-- Passes a state through a step at `n` positions from `i` on. -/
def foldFrom {ε σ : Type} (step : Nat → σ → Except ε σ) (i : Nat) : Nat → σ → Except ε σ
  | 0, state => .ok state
  | n + 1, state =>
    match step i state with
    | .ok state => foldFrom step (i + 1) n state
    | .error e => .error e

variable (table : TypeTable) (arena : Arena)

/-- The address of element `i`. -/
def elementAddr (p : Word) (i : Nat) (elem : TypeId) : Except Fault Word := do
  Word.add p (← Word.mul (UInt64.ofNat i) (table.sizeOf elem))

/-- The type of the value in an interface, which must not be one without equality; `refuse` is
    the panic if it is. -/
def dynamicType (refuse : String → EvalError) (word : Word) : Except EvalError TypeId := do
  let ty ← typeOfWord word
  let e ← table.get ty
  if e.base = .noEquality then throw (refuse (← table.text ty))
  return ty

/-- Compares values of a type without parts. -/
def leafEqual (e : Entry) (ty : TypeId) (p q : Word) : Except EvalError Bool :=
  match e.base with
  | .float32 => Primitives.floatEqual arena .single p q
  | .float64 => Primitives.floatEqual arena .double p q
  | .complex64 => Primitives.complexEqual arena .single p q
  | .complex128 => Primitives.complexEqual arena .double p q
  | .string => Primitives.stringEqual table arena p q
  | .noEquality => do throw (.uncomparable (← table.text ty))
  | _ => Primitives.memoryEqual arena p q e.size

/-- Compares values of a type. The values in interfaces are compared by `dynamic`. -/
def equalVia (dynamic : TypeId → Word → Word → Except EvalError Bool) (ty : TypeId) (p q : Word) :
    Except EvalError Bool :=
  match _hget : table.get ty with
  | .error f => .error (.fault f)
  | .ok e =>
    match _hkind : e.kind with
    | .array elem len =>
      allFrom (fun i => do
        equalVia dynamic elem (← elementAddr table p i elem) (← elementAddr table q i elem))
        0 len.toNat
    | .struct _ _ =>
      e.fields.attach.allM fun ⟨field, _hmem⟩ =>
        if field.isBlank then return true
        else do
          let p ← Word.add p field.offset
          let q ← Word.add q field.offset
          equalVia dynamic field.ty p q
    | .any | .interface _ => do
      let (pWord, pData) ← Primitives.loadPair table arena p
      let (qWord, qData) ← Primitives.loadPair table arena q
      if pWord ≠ qWord then return false
      if pWord = 0 then return true
      dynamic (← dynamicType table .uncomparable pWord) pData qData
    | _ => leafEqual table arena e ty p q
termination_by ty.raw.toNat
decreasing_by
  · exact UInt32.lt_iff_toNat_lt.1 (TypeTable.part_lt _hget (Entry.elem_mem_parts _hkind))
  · exact UInt32.lt_iff_toNat_lt.1 (TypeTable.part_lt _hget (Entry.field_mem_parts _hmem))

/-- Compares values of a type, in which interfaces nest at most `depth` deep. -/
def equalWithin : Nat → TypeId → Word → Word → Except EvalError Bool
  | 0, _, _, _ => .error (.fault .unending)
  | depth + 1, ty, p, q => equalVia table arena (equalWithin depth) ty p q

/-- Compares values of a type. -/
def equal (ty : TypeId) (p q : Word) : Except EvalError Bool :=
  equalWithin table arena Evaluation.callLimit ty p q

/-- Hashes a value of a type without parts. -/
def leafHash (e : Entry) (ty : TypeId) (p h : Word) : Except EvalError Word :=
  match e.base with
  | .float32 => Primitives.floatHash arena .single p h
  | .float64 => Primitives.floatHash arena .double p h
  | .complex64 => Primitives.complexHash arena .single p h
  | .complex128 => Primitives.complexHash arena .double p h
  | .string => Primitives.stringHash table arena p h
  | .noEquality => do throw (.unhashable (← table.text ty))
  | _ => Primitives.memoryHash arena p e.size h

/-- Hashes a value of a type. The values in interfaces are hashed by `dynamic`. -/
def hashVia (dynamic : TypeId → Word → Word → Except EvalError Word) (ty : TypeId) (p h : Word) :
    Except EvalError Word :=
  match _hget : table.get ty with
  | .error f => .error (.fault f)
  | .ok e =>
    match _hkind : e.kind with
    | .array elem len =>
      foldFrom (fun i h => do hashVia dynamic elem (← elementAddr table p i elem) h) 0 len.toNat h
    | .struct _ _ =>
      e.fields.attach.foldlM (fun h ⟨field, _hmem⟩ =>
        if field.isBlank then return h
        else do
          let p ← Word.add p field.offset
          hashVia dynamic field.ty p h) h
    | .any | .interface _ => do
      let (word, data) ← Primitives.loadPair table arena p
      if word = 0 then return h
      let ty ← dynamicType table .unhashable word
      return mixOut * (← dynamic ty data (h ^^^ mixIn))
    | _ => leafHash table arena e ty p h
termination_by ty.raw.toNat
decreasing_by
  · exact UInt32.lt_iff_toNat_lt.1 (TypeTable.part_lt _hget (Entry.elem_mem_parts _hkind))
  · exact UInt32.lt_iff_toNat_lt.1 (TypeTable.part_lt _hget (Entry.field_mem_parts _hmem))

/-- Hashes a value of a type, in which interfaces nest at most `depth` deep. -/
def hashWithin : Nat → TypeId → Word → Word → Except EvalError Word
  | 0, _, _, _ => .error (.fault .unending)
  | depth + 1, ty, p, h => hashVia table arena (hashWithin depth) ty p h

/-- Hashes a value of a type. -/
def hash (ty : TypeId) (p h : Word) : Except EvalError Word :=
  hashWithin table arena Evaluation.callLimit ty p h

end Structural

end HashEq
