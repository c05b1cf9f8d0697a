import HashEq.Machine.Structural
import HashEq.Machine.Value

/-!
# Machines

A machine is a type table with a session and an arena over it: values can be
stored, and then hashed and compared by the code that the session generates.

* `Machine.hash`, `Machine.equal`: through the closures of the session;
* `Machine.structuralHash`, `Machine.structuralEqual`: along the type;
* `Machine.store`: puts a value into the arena.
-/

namespace HashEq

/-- A type table, what has been generated for it, and the memory in which values lie. -/
structure Machine where
  table : TypeTable
  session : Session
  arena : Arena

/-- What is done with a machine. It may fail, and what it has done by then stays. -/
abbrev MachineM := ExceptT EvalError (StateM Machine)

namespace Machine

/-- The machine without any code and memory. -/
def ofTable (table : TypeTable) : Machine :=
  ⟨table, .empty, .empty⟩

/-- Evaluates on the types and the memory of the machine. -/
def evaluate {α : Type} (action : TypeTable → Arena → EvalM α) : MachineM α := fun machine =>
  let (answer, session) := action machine.table machine.arena machine.session
  (answer, { machine with session })

/-- Makes a request to the session. -/
def request {α : Type} (action : TypeTable → SessionM α) : MachineM α :=
  evaluate fun table _ => EvalM.ofRequest (action table)

/-- Asks what depends on the types and the memory alone. -/
def ask {α : Type} (question : TypeTable → Arena → Except EvalError α) : MachineM α :=
  fun machine => (question machine.table machine.arena, machine)

/-- Puts a value of type `ty` into the arena, and answers its address. -/
def store (ty : TypeId) (value : Value) (fill : UInt8) : MachineM Word :=
  fun ⟨table, session, arena⟩ =>
    let (answer, arena) := value.store table fill ty arena
    (answer, ⟨table, session, arena⟩)

/-- Calls a primitive or a generated function on argument words. -/
def call (callee : Callee) (args : List Word) : MachineM Word :=
  evaluate fun table arena => Evaluation.invoke table arena Evaluation.callLimit callee args

/-- Calls a closure with the given target and payload on argument words. -/
def callClosure (target : Callee) (payload : Option Word) (args : List Word) : MachineM Word :=
  evaluate fun table arena =>
    Evaluation.callClosure (Evaluation.invoke table arena Evaluation.callLimit) target payload args

/-- Hashes the value of type `ty` at `p`, from the hash state `seed` on. -/
def hash (ty : TypeId) (p seed : Word) : MachineM Word := do
  let closure ← request fun table => Session.hashClosure table ty
  callClosure closure.target closure.payload [p, seed]

/-- Compares the values of type `ty` at `p` and `q`. -/
def equal (ty : TypeId) (p q : Word) : MachineM Bool := do
  match ← request fun table => Session.equalityClosure table ty with
  | some closure => return (← callClosure closure.target closure.payload [p, q]) != 0
  | none => ask fun table _ => do throw (.uncomparable (← table.text ty))

/-- Hashes the value of type `ty` at `p` along its type. -/
def structuralHash (ty : TypeId) (p seed : Word) : MachineM Word :=
  ask fun table arena => Structural.hash table arena ty p seed

/-- Compares the values of type `ty` at `p` and `q` along their type. -/
def structuralEqual (ty : TypeId) (p q : Word) : MachineM Bool :=
  ask fun table arena => Structural.equal table arena ty p q

/-- The `len` bytes from `addr` on. -/
def read (addr len : Word) : MachineM (List UInt8) :=
  ask fun _ arena => arena.read addr len

end Machine

end HashEq
