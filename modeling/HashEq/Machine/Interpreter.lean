import HashEq.Machine.Primitives

/-!
# Running generated functions

Generated functions are run statement by statement on a frame of words, one per
variable. Labels stand at the top level of a body, so a jump leaves all loops and
branches and goes on behind its label.

* `Interpreter.run`: runs a function, given how calls are made;
* `Evaluation.invoke`: runs whatever can be called.
-/

namespace HashEq

/-- The words of the variables. -/
abbrev Frame := List Word

/-- What an expression evaluates to: a word, or the place that it denotes. -/
inductive Operand
  | word (value : Word)
  | place (addr : Word) (ty : TypeId)

/-- Where control goes after a statement. -/
inductive Flow
  | next
  | goto (label : Nat)
  | ret (value : Word)

namespace Interpreter

/-- More rounds than a loop has that counts a word up. -/
def roundLimit : Nat := UInt64.size

variable (table : TypeTable) (arena : Arena) (call : Callee → List Word → EvalM Word)

/-- The word that an operand is; a place stands for the word stored there. -/
def load : Operand → Except EvalError Word
  | .word value => return value
  | .place addr ty => do
    let size := table.sizeOf ty
    if 8 < size then throw (.malformed (.widePlace size)) else arena.readWord addr size

/-- The place that an operand is. -/
def asPlace : Operand → Except EvalError (Word × TypeId)
  | .place addr ty => return (addr, ty)
  | .word _ => throw (.malformed .notAPlace)

/-- The word that `operand` evaluates to. -/
def wordOf (operand : EvalM Operand) : EvalM Word := do
  load table arena (← operand)

/-- The place that `e` evaluates to by way of `operand`. An expression that can denote no place is
    not evaluated at all. -/
def placeOf (e : Expr) (operand : EvalM Operand) : EvalM (Word × TypeId) := do
  if e.isPlace then asPlace (← operand) else throw (.malformed .notAPlace)

/-- Compares the values at two places of one type. -/
def placesEqual (p q : Word) (ty : TypeId) : Except EvalError Bool :=
  match table.base ty with
  | .memory => Primitives.memoryEqual arena p q (table.sizeOf ty)
  | .float32 => Primitives.floatEqual arena .single p q
  | .float64 => Primitives.floatEqual arena .double p q
  | .complex64 => Primitives.complexEqual arena .single p q
  | .complex128 => Primitives.complexEqual arena .double p q
  | base => throw (.malformed (.inlineEquality base))

/-- The place of a field. -/
def fieldPlace (addr : Word) (owner : TypeId) (index : Nat) : Except EvalError Operand := do
  let e ← table.get owner
  match e.fields[index]? with
  | none => throw (.malformed (.noField index owner))
  | some field => return .place (← Word.add addr field.offset) field.ty

/-- The place of an element. -/
def elementPlace (addr : Word) (array : TypeId) (index : Word) (elem : TypeId) (bounded : Bool) :
    Except EvalError Operand := do
  if !bounded then
    if let some (_, len) := table.arrayElem? array then
      if len ≤ index then throw (.indexOutOfRange index len)
  let offset ← Word.mul index (table.sizeOf elem)
  return .place (← Word.add addr offset) elem

mutual

/-- Evaluates an expression, as far as the place if it denotes one. -/
def operand (frame : Frame) : Expr → EvalM Operand
  | .var id =>
    match frame[id]? with
    | some value => return .word value
    | none => throw (.malformed (.noVariable id))
  | .const value => return .word value
  | .bool value => return .word (wordOfBool value)
  | .deref pointer ty => return .place (← wordOf table arena (operand frame pointer)) ty
  | .field base owner index => do
    let (addr, _) ← placeOf base (operand frame base)
    fieldPlace table addr owner index
  | .index base position elem bounded => do
    let (addr, array) ← placeOf base (operand frame base)
    let index ← wordOf table arena (operand frame position)
    elementPlace table addr array index elem bounded
  | .addr place => return .word (← placeOf place (operand frame place)).1
  | .strLen place => do
    let (addr, _) ← placeOf place (operand frame place)
    return .word (← Primitives.loadPair table arena addr).2
  | .strPtr place => do
    let (addr, _) ← placeOf place (operand frame place)
    return .word (← Primitives.loadPair table arena addr).1
  | .binary .and lhs rhs => do
    if (← wordOf table arena (operand frame lhs)) = 0 then return .word 0
    return .word (wordOfBool ((← wordOf table arena (operand frame rhs)) != 0))
  | .binary .eq lhs rhs =>
    if lhs.isPlace && rhs.isPlace then do
      let a ← operand frame lhs
      let b ← operand frame rhs
      let (p, pTy) ← asPlace a
      let (q, qTy) ← asPlace b
      if pTy ≠ qTy then throw (.malformed .differentTypes)
      return .word (wordOfBool (← placesEqual table arena p q pTy))
    else do
      let a ← wordOf table arena (operand frame lhs)
      let b ← wordOf table arena (operand frame rhs)
      return .word (wordOfBool (a == b))
  | .binary .lt lhs rhs => do
    let a ← wordOf table arena (operand frame lhs)
    let b ← wordOf table arena (operand frame rhs)
    return .word (wordOfBool (a < b))
  | .binary .add lhs rhs => do
    let a ← wordOf table arena (operand frame lhs)
    let b ← wordOf table arena (operand frame rhs)
    return .word (a + b)
  | .call callee args => return .word (← call callee (← words frame args))

/-- Evaluates expressions to words, in order. -/
def words (frame : Frame) : List Expr → EvalM (List Word)
  | [] => return []
  | e :: es => do
    let value ← wordOf table arena (operand frame e)
    return value :: (← words frame es)

end

/-- Evaluates an expression to a word. -/
def eval (frame : Frame) (e : Expr) : EvalM Word :=
  wordOf table arena (operand table arena call frame e)

/-- The rounds of a loop: as long as `holds` answers a truth, `round` and then `step`. -/
def rounds (holds : Frame → EvalM Word) (round : Frame → EvalM (Flow × Frame))
    (step : Frame → EvalM Frame) : Nat → Frame → EvalM (Flow × Frame)
  | 0, _ => throw (.fault .unending)
  | limit + 1, frame => do
    if (← holds frame) = 0 then return (.next, frame)
    match ← round frame with
    | (.next, frame) => rounds holds round step limit (← step frame)
    | left => return left

mutual

/-- Runs a statement. `result` is the variable of the named result. -/
def exec (result : Option Nat) : Stmt → Frame → EvalM (Flow × Frame)
  | .assign target value, frame => do
    let value ← eval table arena call frame value
    if target < frame.length then return (.next, frame.set target value)
    else throw (.malformed (.noVariable target))
  | .branch cond yes no, frame => do
    if (← eval table arena call frame cond) ≠ 0 then execAll result yes frame
    else execAll result no frame
  | .loop init cond post body, frame => do
    -- The statements before the loop and after a round are assignments, which never jump.
    let frame ← execOption result init frame
    rounds (eval table arena call · cond) (execAll result body) (execOption result post)
      roundLimit frame
  | .label _, frame => return (.next, frame)
  | .goto label, frame => return (.goto label, frame)
  | .ret (some value), frame => return (.ret (← eval table arena call frame value), frame)
  | .ret none, frame =>
    match result with
    | none => throw (.malformed .noResult)
    | some id =>
      match frame[id]? with
      | some value => return (.ret value, frame)
      | none => throw (.malformed (.noVariable id))

/-- Runs the statement before a loop, or after a round, if there is one. -/
def execOption (result : Option Nat) : Option Stmt → Frame → EvalM Frame
  | none, frame => return frame
  | some stmt, frame => return (← exec result stmt frame).2

/-- Runs statements in order until control leaves them. -/
def execAll (result : Option Nat) : List Stmt → Frame → EvalM (Flow × Frame)
  | [], frame => return (.next, frame)
  | stmt :: body, frame => do
    match ← exec result stmt frame with
    | (.next, frame) => execAll result body frame
    | left => return left

end

/-- The statements from a label on. -/
def fromLabel (f : Function) (label : Nat) : Except EvalError (List Stmt) :=
  match f.body.dropWhile fun | .label id => id != label | _ => true with
  | [] =>
    match f.labels[label]? with
    | some name => throw (.malformed (.nestedLabel name))
    | none => throw (.fault .index)
  | rest => return rest

/-- Runs the statements of a function, and those that it jumps to, up to a return. -/
def runFrom (f : Function) : Nat → List Stmt → Frame → EvalM Word
  | jumps, body, frame => do
    match ← execAll table arena call f.result body frame with
    | (.next, _) => throw (.malformed .endOfBody)
    | (.ret value, _) => return value
    | (.goto label, frame) =>
      match jumps with
      | 0 => throw (.fault .unending)
      | jumps + 1 =>
        let rest ← fromLabel f label
        runFrom f jumps rest frame

/-- Runs a function on argument words. The other variables start at zero. -/
def run (f : Function) (args : List Word) : EvalM Word :=
  if args.length ≠ f.params then throw (.malformed (.argumentCount f.params args.length))
  else
    runFrom table arena call f roundLimit f.body
      (args ++ List.replicate (f.vars.length - args.length) 0)

end Interpreter

namespace Evaluation

variable (table : TypeTable) (arena : Arena)

/-- Calls the target of a closure; a payload is passed along after the addresses. -/
def callClosure (invoke : Callee → List Word → EvalM Word) : Primitives.Caller
  | .primitive primitive, some size, args =>
    match primitive.contract, args with
    | .hashSized, [p, h] => invoke (.primitive primitive) [p, size, h]
    | .equalSized, [p, q] => invoke (.primitive primitive) [p, q, size]
    | _, _ => throw (.malformed (.payload primitive.symbol))
  | target, _, args => invoke target args

/-- Calls a primitive or a generated function. Calls nest at most `depth` deep. -/
def invoke : Nat → Callee → List Word → EvalM Word
  | 0, _, _ => throw (.fault .unending)
  | depth + 1, .primitive primitive, args =>
    Primitives.run table arena (callClosure (invoke depth)) primitive args
  | depth + 1, .generated symbol, args => do
    match (← get).function? symbol with
    | none => throw (.unknownFunction symbol)
    | some f => Interpreter.run table arena (invoke depth) f args

/-- More than there are different calls: of less than `2 ^ 34` callees, each on at most three words.
    Calls that nest deeper than this repeat one of those that they are part of. -/
def callLimit : Nat := Nat.pow 2 256

end Evaluation

end HashEq
