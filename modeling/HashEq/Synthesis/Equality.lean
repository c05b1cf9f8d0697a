import HashEq.Synthesis.Conditions

/-!
# Equality functions

A generated equality function evaluates one condition after the other and jumps
to a common failure label at the first that does not hold; the last one becomes
the result. Arrays are compared element by element in an unrolled loop.

* `checkAll`: the code that checks a condition at every index of an array;
* `TypeTable.equalityFunction`: the equality function of a type.
-/

namespace HashEq

namespace EqualityCode

/-- The variables of an equality function: the two addresses, the result, and, if the body has a
    loop, the counter. -/
def p : Nat := 0
@[inherit_doc p] def q : Nat := 1
@[inherit_doc p] def r : Nat := 2
@[inherit_doc p] def i : Nat := 3

/-- The labels of an equality function: where it goes when the values differ, and where it
    returns. -/
def differ : Nat := 0
@[inherit_doc differ] def done : Nat := 1

end EqualityCode

open EqualityCode

/-- The number of leading elements that a loop with `unroll` checks per round covers: the largest
    multiple that fits, or none if the loop would run only once. -/
def loopBound (unroll len : Nat) : Nat :=
  if len / unroll = 1 then 0 else len / unroll * unroll

/-- The checks of a loop at the elements before `bound`, `unroll` per round. -/
def checkLoop (unroll bound : Nat) (check : Expr → Except RequestError Expr) :
    Except RequestError (List Stmt) := do
  -- The counter is stepped between the checks of a round, so each check is at an index of its own.
  let condition ← check (.var i)
  let step : Stmt := .assign i (.binary .add (.var i) (.const 1))
  let round := (List.replicate unroll [.guard condition differ, step]).flatten
  return [.loop (some (.assign i (.const 0)))
    (.binary .lt (.var i) (.const (UInt64.ofNat bound))) none round]

/-- Checks of single elements, in order. If these are the last checks of the function, the last
    one becomes the result, which is true if there are none. -/
def checkEach (last : Bool) (check : Expr → Except RequestError Expr) :
    List Nat → Except RequestError (List Stmt)
  | [] => return if last then [.assign r (.bool true)] else []
  | [j] => do
    let condition ← check (.const (UInt64.ofNat j))
    return [if last then .assign r condition else .guard condition differ]
  | j :: js => do
    let condition ← check (.const (UInt64.ofNat j))
    return .guard condition differ :: (← checkEach last check js)

/-- Checks a condition at every index below `len`: in a loop as far as that goes, then one by one.
    The condition is given as a function of the index. -/
def checkAll (unroll : Nat) (last : Bool) (len : Nat) (check : Expr → Except RequestError Expr) :
    Except RequestError (List Stmt) := do
  let bound := loopBound unroll len
  let loop ← if bound = 0 then pure [] else checkLoop unroll bound check
  return loop ++ (← checkEach last check (List.range' bound (len - bound)))

/-- A condition on the elements of two arrays, as a condition on the index. -/
def atElements (ty elem : TypeId) (check : Expr → Expr → Except RequestError Expr)
    (position : Expr) : Except RequestError Expr :=
  check (.elem (.deref (.var p) ty) position elem) (.elem (.deref (.var q) ty) position elem)

namespace TypeTable

variable (table : TypeTable)

/-- Whether arrays of a struct type are compared in two passes, the cheap conditions of all
    elements before the calls. Calls that can panic stay where they are. -/
def comparesInPasses (elem : TypeId) : Bool :=
  let isCall := Condition.isCall table
  (table.conditions elem).any isCall && !(table.conditions elem).all isCall &&
    !table.conditionsCanPanic elem

/-- The conjunction of those conditions for the equality of two structs that are calls, or of
    those that are not. -/
def conditionsThat (calls : Bool) (ty : TypeId) (p q : Expr) : Except RequestError Expr := do
  let conditions := (table.conditions ty).filter fun c => c.isCall table == calls
  return .all (← conditions.mapM (Condition.expr table ty p q))

/-- The body of the equality function of an array type, as far as the result. -/
def arrayChecks (ty elem : TypeId) (len : Nat) : Except RequestError (List Stmt) := do
  let onElements := atElements ty elem
  match table.kind elem with
  | .string =>
    return (← checkAll 3 false len (onElements fun p q => return lengthsEqual p q)) ++
      (← checkAll 1 true len (onElements fun p q => return contentsEqual p q))
  | .float32 | .float64 => checkAll 2 true len (onElements fun p q => return .eq p q)
  | .struct _ _ =>
    if table.comparesInPasses elem then
      return (← checkAll 4 false len (onElements (table.conditionsThat false elem))) ++
        (← checkAll 2 true len (onElements (table.conditionsThat true elem)))
    else checkAll 1 true len (onElements (table.elementEqual elem))
  | _ => checkAll 1 true len (onElements (table.elementEqual elem))

/-- Evaluates conditions in order; the last one becomes the result. -/
def checkConditions : List Expr → List Stmt
  | [] => [.assign r (.bool true)]
  | [condition] => [.assign r condition]
  | condition :: conditions => .guard condition differ :: checkConditions conditions

/-- The body of the equality function of a type, as far as the result. -/
def equalityChecks (ty : TypeId) : Except RequestError (List Stmt) := do
  match table.kind ty with
  | .array elem len => table.arrayChecks ty elem len.toNat
  | .struct _ _ =>
    return checkConditions (← table.structConditions ty (.deref (.var p) ty) (.deref (.var q) ty))
  | _ => throw (.notAggregate (← table.text ty) .equality)

/-- The statements that every equality function ends with. After a failure it goes back to the
    common return if the comparison can panic or calls anything, and returns at once if not. -/
def equalityEnd (backToReturn : Bool) : List Stmt :=
  [.label done, .ret none, .label differ, .assign r (.bool false),
    if backToReturn then .goto done else .ret none]

/-- The equality function of a type. -/
def equalityFunction (ty : TypeId) : Except RequestError Function := do
  let symbol ← table.symbolOf .equality ty
  let checks ← table.equalityChecks ty
  let counter : List Var := if checks.any Stmt.isLoop then [⟨"i", .int⟩] else []
  return {
    symbol, ty
    purpose := .equality
    vars := [⟨"p", .pointer ty⟩, ⟨"q", .pointer ty⟩, ⟨"r", .bool⟩] ++ counter
    params := 2
    result := some r
    labels := ["neq", "ret"]
    body := checks ++ equalityEnd (table.canPanic ty || Stmt.anyCall checks)
    flags := .synthesized }

end TypeTable

end HashEq
