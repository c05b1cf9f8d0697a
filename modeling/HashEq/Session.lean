import HashEq.Closure
import HashEq.Memo
import HashEq.Synthesis.Callees
import HashEq.TypeTable.Algorithm

/-!
# Sessions

A session answers requests for hash and equality code over one type table. It
generates each function and builds each closure at most once, when it is first
asked for. A function is generated after the functions that it calls, which
belong to types with smaller numbers; so requests end.

* `Session.hashClosure`, `Session.equalityClosure`: the closures for a type;
* `Session.generate`: the function generated for a type.
-/

namespace HashEq

/-- What has been generated so far. -/
structure Session where
  functions : Memo (TypeId × Purpose) Function
  closures : Memo ClosureKey Closure
  /-- The generated functions by symbol; of two with one symbol, the later. -/
  registered : Std.HashMap String Function
  /-- The number of functions that were generated. -/
  functionCount : Nat

/-- A request: it may be refused, and what it has generated by then stays. -/
abbrev SessionM := ExceptT RequestError (StateM Session)

namespace Session

/-- The session that has generated nothing yet. -/
def empty : Session := ⟨.empty, .empty, ∅, 0⟩

/-- Where a session keeps the functions by type and purpose. -/
def functionsPlace : Memo.Place Session (TypeId × Purpose) Function where
  read session := session.functions
  update change session := { session with functions := change session.functions }

/-- Where a session keeps the closures. -/
def closuresPlace : Memo.Place Session ClosureKey Closure where
  read session := session.closures
  update change session := { session with closures := change session.closures }

/-- Counts a function, and makes it known by its symbol. -/
def register (f : Function) (session : Session) : Session :=
  { session with
    registered := session.registered.insert f.symbol f
    functionCount := session.functionCount + 1 }

/-- The generated function that is known by a symbol. -/
def function? (session : Session) (symbol : String) : Option Function :=
  session.registered[symbol]?

/-- The generated functions, sorted by symbol. -/
def functionList (session : Session) : List Function :=
  session.registered.values.mergeSort fun f g => f.symbol ≤ g.symbol

/-- The closures, sorted by symbol. -/
def closureList (session : Session) : List Closure :=
  session.closures.values.mergeSort fun c d => c.symbol ≤ d.symbol

/-- The number of closures that were requested. -/
def closureCount (session : Session) : Nat :=
  session.closures.size

variable (table : TypeTable)

/-- Refuses a generated function for a type that does not need one. -/
def requireCustom (purpose : Purpose) (ty : TypeId) : Except RequestError Unit := do
  let e ← table.get ty
  if !e.flags.isAggregate then
    throw (.notAggregate (← table.text ty) purpose)
  else if table.algorithm ty ≠ .custom then
    throw (.notCustom (← table.text ty) purpose (table.algorithm ty))

/-- The function generated for a purpose and a type. -/
def generate (purpose : Purpose) (ty : TypeId) : SessionM Function :=
  Memo.obtain functionsPlace (ty, purpose) do
    requireCustom table purpose ty
    -- A type without a text is refused before anything is generated for its parts.
    let _ ← table.symbolOf purpose ty
    (table.callees purpose ty).attach.forM fun ⟨callee, _hcallee⟩ =>
      discard (generate purpose callee)
    let f ← table.synthesize purpose ty
    modify (register f)
    return f
termination_by ty.raw.toNat
decreasing_by exact UInt32.lt_iff_toNat_lt.1 (TypeTable.callees_lt _hcallee)

/-- Builds the closure over a generated function. -/
def wrap (ty : TypeId) (f : Function) : Except RequestError Closure := do
  let text ← table.text ty
  Closure.make table.target.pointerSize (Closure.symbolOfText f.purpose text)
    (.generated f.symbol) none

/-- The closure over the primitive for an algorithm. -/
def primitiveClosure (purpose : Purpose) (ty : TypeId) (algorithm : Algorithm) :
    SessionM Closure := do
  match Primitive.ofAlgorithm? algorithm purpose with
  | none => throw (.noHash (← table.text ty))
  | some primitive =>
    let make := Closure.make table.target.pointerSize
    if primitive.carriesSize then
      let size := table.sizeOf ty
      Memo.obtain closuresPlace (.varMemory purpose size) do
        make (Closure.symbolOfSize purpose size) (.primitive primitive) (some size)
    else
      Memo.obtain closuresPlace (.primitive primitive) do
        make primitive.closureSymbol (.primitive primitive) none

/-- The closure that hashes values of a type. Those for its parts are built along with it. -/
def hashClosure (ty : TypeId) : SessionM Closure := do
  let _ ← table.get ty
  match table.algorithm ty with
  | .noEquality => throw (.noHash (← table.text ty))
  | .custom =>
    -- The closures for the parts are cheap and shared, whether or not the function calls them.
    Memo.obtain closuresPlace (.generated ty .hash) do
      (table.entry ty).parts.attach.forM fun ⟨part, _hpart⟩ => discard (hashClosure part)
      let f ← generate table .hash ty
      wrap table ty f
  | algorithm => primitiveClosure table .hash ty algorithm
termination_by ty.raw.toNat
decreasing_by exact UInt32.lt_iff_toNat_lt.1 (TypeTable.part_lt_of_mem _hpart)

/-- The closure that compares values of a type; none for a type without equality. -/
def equalityClosure (ty : TypeId) : SessionM (Option Closure) := do
  let _ ← table.get ty
  match table.algorithm ty with
  | .noEquality => return none
  | .custom =>
    let closure ← Memo.obtain closuresPlace (.generated ty .equality) do
      let f ← generate table .equality ty
      wrap table ty f
    return some closure
  | algorithm => return some (← primitiveClosure table .equality ty algorithm)

/-- What hashes parts of a type that are not plain memory; its function is generated if need
    be. -/
def hashCallee (ty : TypeId) : SessionM Callee := do
  let _ ← table.get ty
  if table.isSpecial ty then discard (generate table .hash ty)
  table.hashCallee ty

/-- What compares parts of a type by a call, and whether it takes the size as well. -/
def equalityCallee (ty : TypeId) : SessionM (Callee × Bool) := do
  let e ← table.get ty
  match e.base with
  | .memory => return (.primitive ⟨.equality, .memory⟩, true)
  | .special => return (.generated (← generate table .equality ty).symbol, false)
  | base =>
    throw (.noDirectEquality (← table.text ty) base)

/-- The closures for a type; none for a type without equality. -/
structure TypeClosures where
  ty : TypeId
  hash : Option Closure
  equality : Option Closure

/-- The closures for a type. -/
def closuresFor (ty : TypeId) : SessionM TypeClosures := do
  let _ ← table.get ty
  if table.algorithm ty = .noEquality then return ⟨ty, none, none⟩
  let hash ← hashClosure table ty
  return ⟨ty, some hash, ← equalityClosure table ty⟩

/-- What a request answers, or why it is refused. Only a fault stops the caller as well. -/
def attempt {α : Type} (request : SessionM α) : SessionM (Except RequestError α) :=
  tryCatch (Except.ok <$> request) fun
    | .fault f => throw (.fault f)
    | e => return .error e

/-- The closures for each of several types, in order. -/
def generateAll (types : List TypeId) : SessionM (List (Except RequestError TypeClosures)) :=
  types.mapM fun ty => attempt (closuresFor table ty)

end Session

end HashEq
