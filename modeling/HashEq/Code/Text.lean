import HashEq.Code.Function
import HashEq.TypeTable.Text

/-!
# The text of generated code

Generated functions are written one statement per line. A place behind a pointer
is written without the dereference when it is selected from or indexed, so `p.f`
stands for a field of what `p` points to. Operands are put in parentheses where
their operator binds less tightly than the one around them.

* `Expr.text`, `Function.text`: the text of an expression and of a function.
-/

namespace HashEq

/-- How tightly an operator binds. -/
def BinaryOp.precedence : BinaryOp → Nat
  | and => 1
  | eq | lt => 3
  | add => 4

/-- What the text of a function refers to: the types, and the names of variables and labels. -/
structure Scope where
  table : TypeTable
  vars : List Var
  labels : List String

namespace Scope

variable (scope : Scope)

/-- The name of a variable. -/
def var (id : Nat) : Except Fault Var :=
  match scope.vars[id]? with
  | some var => .ok var
  | none => .error .index

/-- The name of a label. -/
def label (id : Nat) : Except Fault String :=
  match scope.labels[id]? with
  | some name => .ok name
  | none => .error .index

/-- The name of a field; blank fields and those that are missing have none. -/
def fieldName (owner : TypeId) (index : Nat) : Except Fault String := do
  let e ← scope.table.get owner
  return ((e.fields[index]?).bind (·.name)).getD "_"

/-- The text of the type of a variable. -/
def typeText : VarType → Except Fault String
  | .pointer ty => return "*" ++ (← scope.table.text ty)
  | .uintptr => return "uintptr"
  | .int => return "int"
  | .bool => return "bool"

/-- The text of a declaration. -/
def declText (var : Var) : Except Fault String :=
  return var.name ++ " " ++ (← scope.typeText var.type)

end Scope

namespace Expr

/-- Whether an operand of `op` is put in parentheses. -/
def needsParens (op : BinaryOp) : Expr → Bool
  | binary inner _ _ => inner.precedence < op.precedence
  | _ => false

/-- Puts a text in parentheses, if it needs them. -/
def wrap (parens : Bool) (text : String) : String :=
  if parens then "(" ++ text ++ ")" else text

mutual

/-- The text of an expression. -/
def text (scope : Scope) : Expr → Except Fault String
  | var id => return (← scope.var id).name
  | const value => return toString value.toNat
  | bool value => return if value then "true" else "false"
  | deref pointer _ => return "*" ++ (← text scope pointer)
  | field (deref pointer _) owner position =>
    return (← text scope pointer) ++ "." ++ (← scope.fieldName owner position)
  | field base owner position =>
    return (← text scope base) ++ "." ++ (← scope.fieldName owner position)
  | index (deref pointer _) position _ _ =>
    return (← text scope pointer) ++ "[" ++ (← text scope position) ++ "]"
  | index base position _ _ =>
    return (← text scope base) ++ "[" ++ (← text scope position) ++ "]"
  | addr place => return "&" ++ (← text scope place)
  | strLen place => return "len(" ++ (← text scope place) ++ ")"
  | strPtr place => return (← text scope place) ++ ".ptr"
  | binary op lhs rhs =>
    return wrap (lhs.needsParens op) (← text scope lhs) ++ " " ++ op.text ++ " " ++
      wrap (rhs.needsParens op) (← text scope rhs)
  | call callee args => return callee.symbol ++ "(" ++ ", ".intercalate (← texts scope args) ++ ")"

/-- The texts of expressions. -/
def texts (scope : Scope) : List Expr → Except Fault (List String)
  | [] => return []
  | e :: es => return (← text scope e) :: (← texts scope es)

end

end Expr

namespace Stmt

/-- The blanks in front of a line at a nesting depth. -/
def indent (depth : Nat) : String :=
  String.join (List.replicate depth "    ")

/-- The text of a statement that fits on one line. -/
def simpleText (scope : Scope) : Stmt → Except Fault String
  | assign target value => return (← scope.var target).name ++ " = " ++ (← value.text scope)
  | goto id => return "goto " ++ (← scope.label id)
  | ret none => return "return"
  | ret (some value) => return "return " ++ (← value.text scope)
  | label id => return (← scope.label id) ++ ":"
  | branch .. | loop .. => return "..."

/-- The text of a loop's first line. -/
def loopText (scope : Scope) (init : Option Stmt) (cond : Expr) (post : Option Stmt) :
    Except Fault String := do
  let init ← match init with
    | some stmt => simpleText scope stmt
    | none => pure ""
  let cond ← cond.text scope
  let post ← match post with
    | some stmt => pure ((← simpleText scope stmt) ++ " ")
    | none => pure ""
  return "for " ++ init ++ "; " ++ cond ++ "; " ++ post ++ "\x7b\n"

mutual

/-- The lines of a statement at a nesting depth. Labels hang one level out. -/
def lines (scope : Scope) (depth : Nat) : Stmt → Except Fault String
  | label id => return indent (depth - 1) ++ (← scope.label id) ++ ":\n"
  | branch cond [] [goto id] =>
    return indent depth ++ "if " ++ (← cond.text scope) ++ " \x7b\x7d else \x7b goto " ++
      (← scope.label id) ++ " \x7d\n"
  | branch cond yes [] =>
    return indent depth ++ "if " ++ (← cond.text scope) ++ " \x7b\n" ++
      (← blockLines scope (depth + 1) yes) ++ indent depth ++ "\x7d\n"
  | branch cond yes no =>
    return indent depth ++ "if " ++ (← cond.text scope) ++ " \x7b\n" ++
      (← blockLines scope (depth + 1) yes) ++ indent depth ++ "\x7d else \x7b\n" ++
      (← blockLines scope (depth + 1) no) ++ indent depth ++ "\x7d\n"
  | loop init cond post body =>
    return indent depth ++ (← loopText scope init cond post) ++
      (← blockLines scope (depth + 1) body) ++ indent depth ++ "\x7d\n"
  | stmt => return indent depth ++ (← simpleText scope stmt) ++ "\n"

/-- The lines of statements at a nesting depth. -/
def blockLines (scope : Scope) (depth : Nat) : List Stmt → Except Fault String
  | [] => return ""
  | stmt :: body => return (← lines scope depth stmt) ++ (← blockLines scope depth body)

end

end Stmt

namespace Function

/-- What the text of a function refers to. -/
def scope (f : Function) (table : TypeTable) : Scope :=
  ⟨table, f.vars, f.labels⟩

/-- The text of what a function returns. -/
def resultText (f : Function) (scope : Scope) : Except Fault String :=
  match f.result, f.purpose with
  | some id, _ => return "(" ++ (← scope.declText (← scope.var id)) ++ ")"
  | none, .hash => return "uintptr"
  | none, .equality => return "bool"

/-- The line that declares a variable. -/
def varLine (scope : Scope) (var : Var) : Except Fault String :=
  return Stmt.indent 1 ++ "var " ++ (← scope.declText var) ++ "\n"

/-- The variables that are neither parameters nor the named result. -/
def ownVars (f : Function) : List Var :=
  f.vars.zipIdx.filterMap fun (var, id) =>
    if id < f.params || f.result == some id then none else some var

/-- The text of a function. -/
def text (f : Function) (table : TypeTable) : Except Fault String := do
  let scope := f.scope table
  let params ← (f.vars.take f.params).mapM scope.declText
  let result ← f.resultText scope
  let vars ← f.ownVars.mapM (varLine scope)
  let body ← Stmt.blockLines scope 1 f.body
  return "func " ++ f.symbol ++ "(" ++ ", ".intercalate params ++ ") " ++ result ++ " \x7b\n" ++
    String.join vars ++ body ++ "\x7d\n"

end Function

end HashEq
