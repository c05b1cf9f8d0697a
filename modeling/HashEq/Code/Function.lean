import HashEq.Code.Expr

/-!
# Generated functions

A function body is a list of statements, in which labels and jumps are few and
loops are counted. Hash functions take an address and a hash state and return
the next hash state; equality functions take two addresses and return through
a named result. Parameters come before the other variables.

* `Function.Draft`: a function under construction.
-/

namespace HashEq

/-- The static types of variables. -/
inductive VarType
  | pointer (ty : TypeId)
  /-- A hash state. -/
  | uintptr
  /-- A loop counter. -/
  | int
  | bool
  deriving DecidableEq, Repr

/-- The declaration of a variable. -/
structure Var where
  name : String
  type : VarType
  deriving DecidableEq, Repr

/-- Statements. -/
inductive Stmt
  | assign (target : Nat) (value : Expr)
  | branch (cond : Expr) (yes no : List Stmt)
  /-- Runs `init`, then `body` and `post` as long as `cond` holds. -/
  | loop (init : Option Stmt) (cond : Expr) (post : Option Stmt) (body : List Stmt)
  | label (id : Nat)
  | goto (id : Nat)
  /-- Returns a value, or the named result. -/
  | ret (value : Option Expr)

namespace Stmt

/-- Goes on if `cond` holds, and jumps to `target` if not. -/
def guard (cond : Expr) (target : Nat) : Stmt :=
  branch cond [] [goto target]

/-- Whether a statement is a loop. -/
def isLoop : Stmt → Bool
  | loop .. => true
  | _ => false

mutual

/-- Whether a call appears anywhere in a statement. -/
def containsCall : Stmt → Bool
  | assign _ value => value.containsCall
  | branch cond yes no => cond.containsCall || anyCall yes || anyCall no
  | loop init cond post body =>
    optionContainsCall init || cond.containsCall || optionContainsCall post || anyCall body
  | label _ | goto _ | ret none => false
  | ret (some value) => value.containsCall

/-- Whether a call appears anywhere in a statement that may be missing. -/
def optionContainsCall : Option Stmt → Bool
  | none => false
  | some stmt => containsCall stmt

/-- Whether a call appears anywhere in a list of statements. -/
def anyCall : List Stmt → Bool
  | [] => false
  | stmt :: body => containsCall stmt || anyCall body

end

end Stmt

/-- The attributes of a generated function. -/
structure FunctionFlags where
  /-- It is never inlined into its callers. -/
  noInline : Bool
  /-- Identical copies may be merged. -/
  mergeable : Bool
  /-- Its callers never pass nil. -/
  noNilChecks : Bool
  deriving DecidableEq, Repr

namespace FunctionFlags

/-- The attributes of every synthesized function. -/
def synthesized : FunctionFlags := ⟨true, true, true⟩

/-- The names of the attributes that are set. -/
def names (flags : FunctionFlags) : List String :=
  [(flags.noInline, "NOINLINE"), (flags.mergeable, "DUPOK"),
    (flags.noNilChecks, "NIL_CHECK_DISABLED")].filterMap fun (set, name) =>
      if set then some name else none

/-- The attributes with the given names. -/
def ofNames (names : List String) : FunctionFlags :=
  ⟨names.contains "NOINLINE", names.contains "DUPOK", names.contains "NIL_CHECK_DISABLED"⟩

end FunctionFlags

/-- A generated hash or equality function. -/
structure Function where
  symbol : String
  /-- The type of the values that it hashes or compares. -/
  ty : TypeId
  purpose : Purpose
  /-- The variables, the parameters first. -/
  vars : List Var
  /-- The number of parameters. -/
  params : Nat
  /-- The variable through which it returns, if it has a named result. -/
  result : Option Nat
  labels : List String
  body : List Stmt
  flags : FunctionFlags

namespace Function

/-- Whether the body contains a call. -/
def containsCall (f : Function) : Bool :=
  Stmt.anyCall f.body

/-- A function under construction. -/
structure Draft where
  vars : List Var
  params : Nat
  labels : List String
  body : List Stmt

namespace Draft

/-- The draft without any declarations and statements. -/
def empty : Draft := ⟨[], 0, [], []⟩

/-- Declares a variable. -/
def declare (draft : Draft) (var : Var) : Nat × Draft :=
  (draft.vars.length, { draft with vars := draft.vars ++ [var] })

/-- Declares a parameter, which must come before all other variables. -/
def param (draft : Draft) (var : Var) : Except Fault (Nat × Draft) :=
  if draft.params = draft.vars.length then
    .ok ({ draft with params := draft.params + 1 }.declare var)
  else .error .assertion

/-- Declares a label. -/
def label (draft : Draft) (name : String) : Nat × Draft :=
  (draft.labels.length, { draft with labels := draft.labels ++ [name] })

/-- Adds a statement at the end. -/
def push (draft : Draft) (stmt : Stmt) : Draft :=
  { draft with body := draft.body ++ [stmt] }

/-- The finished function. -/
def finish (draft : Draft) (symbol : String) (ty : TypeId) (purpose : Purpose)
    (result : Option Nat) (flags : FunctionFlags) : Function :=
  { draft with symbol, ty, purpose, result, flags }

end Draft

end Function

end HashEq
