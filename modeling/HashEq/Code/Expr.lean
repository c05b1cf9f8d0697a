import HashEq.Primitive
import HashEq.TypeId

/-!
# Expressions of generated code

Generated functions work on words. Memory is reached through *places*: what a
pointer points to, a field of a place, an element of a place. A place carries its
static type, so that a reader of the code knows how wide each access is.
-/

namespace HashEq

/-- The operators of generated code. -/
inductive BinaryOp
  /-- Equality of two words, or of the values at two places of one type: byte by byte for
      plain memory, numerically for floats and complex numbers. -/
  | eq
  | lt
  /-- The sum, which wraps. -/
  | add
  /-- The conjunction, which leaves the right operand alone if the left one is false. -/
  | and
  deriving DecidableEq, Repr

/-- How an operator is written. -/
def BinaryOp.text : BinaryOp → String
  | eq => "=="
  | lt => "<"
  | add => "+"
  | and => "&&"

/-- What a call calls. -/
inductive Callee
  | primitive (primitive : Primitive)
  /-- The generated function that is registered under a symbol. -/
  | generated (symbol : String)
  deriving DecidableEq, Repr

/-- The symbol of what is called. -/
def Callee.symbol : Callee → String
  | .primitive p => p.symbol
  | .generated symbol => symbol

/-- Expressions. -/
inductive Expr
  /-- The variable with the given number. -/
  | var (id : Nat)
  | const (value : Word)
  | bool (value : Bool)
  /-- The place of type `ty` that `pointer` points to. -/
  | deref (pointer : Expr) (ty : TypeId)
  /-- Field `index` of the struct of type `owner` at the place `base`. -/
  | field (base : Expr) (owner : TypeId) (index : Nat)
  /-- Element `index`, of type `elem`, of the array at the place `base`. A bounded index is known
      to be in range. -/
  | index (base index : Expr) (elem : TypeId) (bounded : Bool)
  /-- The address of a place. -/
  | addr (place : Expr)
  /-- The length of the string at a place. -/
  | strLen (place : Expr)
  /-- The address of the bytes of the string at a place. -/
  | strPtr (place : Expr)
  | binary (op : BinaryOp) (lhs rhs : Expr)
  | call (callee : Callee) (args : List Expr)

namespace Expr

/-- An element whose index is known to be in range. -/
def elem (base position : Expr) (ty : TypeId) : Expr :=
  index base position ty true

/-- The comparison of two words, or of the values at two places. -/
def eq (lhs rhs : Expr) : Expr :=
  binary .eq lhs rhs

/-- The conjunction with what comes before, if anything does. -/
def and : Option Expr → Expr → Expr
  | some lhs, rhs => binary .and lhs rhs
  | none, rhs => rhs

/-- The conjunction of all of `conditions`, grouped from the left; true if there are none. -/
def all (conditions : List Expr) : Expr :=
  (conditions.foldl (fun before condition => some (and before condition)) none).getD (bool true)

/-- Whether an expression denotes a place. -/
def isPlace : Expr → Bool
  | deref .. | field .. | index .. => true
  | _ => false

/-- Whether an expression is itself a call. -/
def isCall : Expr → Bool
  | call .. => true
  | _ => false

/-- Whether a call appears anywhere in an expression. -/
def containsCall : Expr → Bool
  | call .. => true
  | var _ | const _ | bool _ => false
  | deref e _ | field e _ _ | addr e | strLen e | strPtr e => e.containsCall
  | index base position _ _ => base.containsCall || position.containsCall
  | binary _ lhs rhs => lhs.containsCall || rhs.containsCall

end Expr

end HashEq
