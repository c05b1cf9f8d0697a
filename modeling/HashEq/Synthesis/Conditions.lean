import HashEq.Code.Function
import HashEq.RequestError
import HashEq.TypeTable.Runs
import HashEq.TypeTable.Text

/-!
# Conditions for equality

Two values of a struct are equal when all conditions hold that are listed here:
one or two for every named field, or one for several fields of plain memory
together. Cheap conditions come before calls, except that nothing is moved
across a condition that can panic.

* `TypeTable.conditions`: the conditions for a struct, in the order of evaluation;
* `Condition.expr`: a condition as an expression over two places.
-/

namespace HashEq

/-- The symbol of the function generated for a purpose, given the text of the type. -/
def functionSymbol (purpose : Purpose) (text : String) : String :=
  match purpose with
  | .hash => ".hash." ++ text
  | .equality => ".eq." ++ text

/-- The condition that the strings at two places are equally long. -/
def lengthsEqual (p q : Expr) : Expr :=
  .eq (.strLen p) (.strLen q)

/-- The condition that the strings at two places, which are equally long, have the same bytes. -/
def contentsEqual (p q : Expr) : Expr :=
  .call (.primitive ⟨.equality, .memory⟩) [.strPtr p, .strPtr q, .strLen p]

/-- One of the conditions for the equality of two values of a struct. -/
inductive Condition
  /-- Field `i`, of plain memory, is the same. -/
  | same (i : Nat)
  /-- The `size` bytes from the start of field `i` on are the same. -/
  | block (i : Nat) (size : Word)
  /-- The strings in field `i` are equally long. -/
  | lengths (i : Nat)
  /-- The strings in field `i`, which are equally long, have the same bytes. -/
  | contents (i : Nat)
  /-- Field `i`, of type `ty`, is equal in the sense of its type. -/
  | element (i : Nat) (ty : TypeId)
  deriving DecidableEq, Repr

namespace TypeTable

variable (table : TypeTable)

/-- The symbol of the function generated for a type. -/
def symbolOf (purpose : Purpose) (ty : TypeId) : Except RequestError String :=
  return functionSymbol purpose (← table.text ty)

/-- Whether values of a type are compared by a call of a function for the type. -/
def comparesByCall (ty : TypeId) : Bool :=
  match table.base ty with
  | .interface | .nilInterface | .special => true
  | _ => false

/-- The condition that the values at two places of type `ty` are equal. -/
def elementEqual (ty : TypeId) (p q : Expr) : Except RequestError Expr :=
  match table.base ty with
  | .memory | .float32 | .float64 | .complex64 | .complex128 => return .eq p q
  | .string => return .and (some (lengthsEqual p q)) (contentsEqual p q)
  | .interface => return .call (.primitive ⟨.equality, .interface⟩) [.addr p, .addr q]
  | .nilInterface => return .call (.primitive ⟨.equality, .nilInterface⟩) [.addr p, .addr q]
  | .special => return .call (.generated (← table.symbolOf .equality ty)) [.addr p, .addr q]
  | .noEquality => do throw (.uncomparable (← table.text ty))

end TypeTable

namespace Condition

/-- Whether a condition is a call. -/
def isCall (table : TypeTable) : Condition → Bool
  | same _ | lengths _ => false
  | block .. | contents _ => true
  | element _ ty => table.comparesByCall ty

/-- A condition on the structs of type `owner` at two places. -/
def expr (table : TypeTable) (owner : TypeId) (p q : Expr) : Condition → Except RequestError Expr
  | same i => return .eq (.field p owner i) (.field q owner i)
  | block i size =>
    return .call (.primitive ⟨.equality, .memory⟩)
      [.addr (.field p owner i), .addr (.field q owner i), .const size]
  | lengths i => return lengthsEqual (.field p owner i) (.field q owner i)
  | contents i => return contentsEqual (.field p owner i) (.field q owner i)
  | element i ty => table.elementEqual ty (.field p owner i) (.field q owner i)

/-- Puts the conditions that are calls after those that are not. -/
def callsLast (isCall : Condition → Bool) (conditions : List Condition) : List Condition :=
  conditions.filter (!isCall ·) ++ conditions.filter isCall

/-- Arranges the conditions of the fields, given field by field together with whether comparing
    the field can panic. Between two fields that can, calls go last; `pending` are the
    conditions since the last such field. -/
def arrange (isCall : Condition → Bool) (pending : List Condition) :
    List (Bool × List Condition) → List Condition
  | [] => callsLast isCall pending
  | (false, conditions) :: rest => arrange isCall (pending ++ conditions) rest
  | (true, conditions) :: rest =>
    callsLast isCall pending ++ callsLast isCall conditions ++ arrange isCall [] rest

theorem mem_callsLast {isCall : Condition → Bool} {conditions : List Condition} {c : Condition} :
    c ∈ callsLast isCall conditions ↔ c ∈ conditions := by
  unfold callsLast
  rw [List.mem_append, List.mem_filter, List.mem_filter]
  cases isCall c with
  | false => simp
  | true => simp

/-- Arranging conditions loses none and invents none. -/
theorem mem_arrange {isCall : Condition → Bool} {pending : List Condition}
    {groups : List (Bool × List Condition)} {c : Condition} :
    c ∈ arrange isCall pending groups ↔ c ∈ pending ∨ ∃ group ∈ groups, c ∈ group.2 := by
  fun_induction arrange isCall pending groups with
  | case1 pending => simp [mem_callsLast]
  | case2 pending conditions rest ih => simp [ih, or_assoc]
  | case3 pending conditions rest ih => simp [ih, mem_callsLast]

end Condition

namespace TypeTable

variable (table : TypeTable)

/-- The field after the last one that the conditions of field `i` cover. -/
def comparedUpTo (ty : TypeId) (i : Nat) : Nat :=
  match (table.fields ty)[i]? with
  | some field => if table.isMemory field.ty then (table.fieldCost ty i).next else i + 1
  | none => i + 1

/-- The conditions for field `i` of a struct, and for the fields of plain memory that are
    compared together with it. -/
def fieldConditions (ty : TypeId) (field : Field) (i : Nat) : List Condition :=
  if table.isMemory field.ty then
    let span := table.fieldCost ty i
    if span.cost ≤ maxInlineCost then (List.range' i (span.next - i)).map .same
    else [.block i span.size]
  else if table.isString field.ty then [.lengths i, .contents i]
  else [.element i field.ty]

/-- Whether the comparison of a field can panic. Plain memory cannot, whatever its type. -/
def fieldCanPanic (field : Field) : Bool :=
  !table.isMemory field.ty && table.canPanic field.ty

/-- The fields of a struct at which its conditions start. -/
def comparedFields (ty : TypeId) : List (Field × Nat) :=
  leaders (table.comparedUpTo ty) 0 (table.fields ty).zipIdx

/-- The conditions for the equality of two values of a struct, in the order of evaluation. -/
def conditions (ty : TypeId) : List Condition :=
  Condition.arrange (Condition.isCall table) [] <|
    (table.comparedFields ty).map fun (field, i) =>
      (table.fieldCanPanic field, table.fieldConditions ty field i)

/-- Whether the order of the conditions was pinned around one that can panic. -/
def conditionsCanPanic (ty : TypeId) : Bool :=
  (table.comparedFields ty).any fun (field, _) => table.fieldCanPanic field

/-- The conditions for the equality of the structs at two places. -/
def structConditions (ty : TypeId) (p q : Expr) : Except RequestError (List Expr) :=
  (table.conditions ty).mapM (Condition.expr table ty p q)

end TypeTable

end HashEq
