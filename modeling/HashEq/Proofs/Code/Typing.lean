import HashEq.Code.Function
import HashEq.TypeTable.Basic

/-!
# Types of generated code

Code is well typed if its variables exist, places are used as places and words as
words, every call is one that can be made, jumps go to labels at the top of the body,
and control does not run out of it. What can be called, and with how many arguments, is
a parameter.

* `Expr.HasType`: the type of an expression;
* `Stmt.Typed`, `Function.Typed`: well-typed statements and functions;
* `Expr.calls`, `Stmt.calls`, `Function.calls`: the calls in code, each with its number
  of arguments;
* `Function.Typed.calls`: well-typed functions make no calls but those that can be made.
-/

namespace HashEq

/-- What an expression stands for. -/
inductive ExprType
  | word
  /-- A truth value, zero or one. -/
  | bool
  | place (ty : TypeId)

/-- What a variable stands for. -/
def VarType.exprType : VarType → ExprType
  | .pointer _ | .uintptr | .int => .word
  | .bool => .bool

/-- What functions answer: a hash state or a truth value. -/
def Purpose.exprType : Purpose → ExprType
  | .hash => .word
  | .equality => .bool

/-- Whether values are compared in place. -/
def BaseAlgorithm.ComparedInPlace (base : BaseAlgorithm) : Prop :=
  base ∈ [.memory, .float32, .float64, .complex64, .complex128]

/-- The type of an expression in the code of a function. -/
inductive Expr.HasType (table : TypeTable) (callable : Callee → Nat → Prop) (f : Function) :
    Expr → ExprType → Prop
  | var {id : Nat} {var : Var} : f.vars[id]? = some var →
      HasType table callable f (.var id) var.type.exprType
  | const (value : Word) : HasType table callable f (.const value) .word
  | bool (value : Bool) : HasType table callable f (.bool value) .bool
  /-- A truth value is a word. -/
  | ofBool {e : Expr} : HasType table callable f e .bool → HasType table callable f e .word
  | deref {pointer : Expr} (ty : TypeId) : HasType table callable f pointer .word →
      HasType table callable f (.deref pointer ty) (.place ty)
  | field {base : Expr} {owner : TypeId} {e : Entry} {index : Nat} {field : Field} :
      HasType table callable f base (.place owner) → table.get owner = .ok e →
      e.fields[index]? = some field →
      HasType table callable f (.field base owner index) (.place field.ty)
  | elem {base position : Expr} {array elem : TypeId} {len : Word} :
      HasType table callable f base (.place array) → table.kind array = .array elem len →
      HasType table callable f position .word →
      HasType table callable f (.elem base position elem) (.place elem)
  | addr {place : Expr} {ty : TypeId} : HasType table callable f place (.place ty) →
      HasType table callable f (.addr place) .word
  | strLen {place : Expr} {ty : TypeId} : HasType table callable f place (.place ty) →
      table.base ty = .string → HasType table callable f (.strLen place) .word
  | strPtr {place : Expr} {ty : TypeId} : HasType table callable f place (.place ty) →
      table.base ty = .string → HasType table callable f (.strPtr place) .word
  | equalPlaces {lhs rhs : Expr} {ty : TypeId} : HasType table callable f lhs (.place ty) →
      HasType table callable f rhs (.place ty) → (table.base ty).ComparedInPlace →
      HasType table callable f (.eq lhs rhs) .bool
  | equalWords {lhs rhs : Expr} : HasType table callable f lhs .word →
      HasType table callable f rhs .word → HasType table callable f (.eq lhs rhs) .bool
  | lt {lhs rhs : Expr} : HasType table callable f lhs .word →
      HasType table callable f rhs .word → HasType table callable f (.binary .lt lhs rhs) .bool
  | add {lhs rhs : Expr} : HasType table callable f lhs .word →
      HasType table callable f rhs .word → HasType table callable f (.binary .add lhs rhs) .word
  | and {lhs rhs : Expr} : HasType table callable f lhs .bool →
      HasType table callable f rhs .bool → HasType table callable f (.binary .and lhs rhs) .bool
  | call {callee : Callee} {args : List Expr} : callable callee args.length →
      (∀ e ∈ args, HasType table callable f e .word) →
      HasType table callable f (.call callee args) f.purpose.exprType

/-- The statements that can stand in the body of a function. -/
inductive Stmt.Typed (table : TypeTable) (callable : Callee → Nat → Prop) (f : Function) : Stmt → Prop
  | assign {target : Nat} {var : Var} {value : Expr} : f.vars[target]? = some var →
      value.HasType table callable f var.type.exprType → Typed table callable f (.assign target value)
  | branch {cond : Expr} {yes no : List Stmt} : cond.HasType table callable f .bool →
      (∀ stmt ∈ yes, Typed table callable f stmt) → (∀ stmt ∈ no, Typed table callable f stmt) →
      Typed table callable f (.branch cond yes no)
  | loop {init post : Option Stmt} {cond : Expr} {body : List Stmt} :
      (∀ stmt ∈ init, Typed table callable f stmt) → cond.HasType table callable f .bool →
      (∀ stmt ∈ post, Typed table callable f stmt) → (∀ stmt ∈ body, Typed table callable f stmt) →
      Typed table callable f (.loop init cond post body)
  | label (id : Nat) : Typed table callable f (.label id)
  | goto {id : Nat} : Stmt.label id ∈ f.body → Typed table callable f (.goto id)
  | ret {value : Expr} : value.HasType table callable f f.purpose.exprType →
      Typed table callable f (.ret (some value))
  /-- The named result is returned. -/
  | result {id : Nat} {var : Var} : f.result = some id → f.vars[id]? = some var →
      var.type.exprType = f.purpose.exprType → Typed table callable f (.ret none)

/-- Whether control never goes on behind a statement. -/
def Stmt.leaves : Stmt → Bool
  | goto _ | ret _ => true
  | _ => false

/-- The functions that take two words and can be run. -/
structure Function.Typed (table : TypeTable) (callable : Callee → Nat → Prop) (f : Function) :
    Prop where
  params : f.params = 2
  args : ∀ id < 2, ∃ var, f.vars[id]? = some var ∧ var.type.exprType = .word
  body : ∀ stmt ∈ f.body, stmt.Typed table callable f
  leaves : ∃ stmt ∈ f.body.getLast?, stmt.leaves = true

/-! ### Calls -/

mutual

/-- The calls in an expression. -/
def Expr.calls : Expr → List (Callee × Nat)
  | .var _ | .const _ | .bool _ => []
  | .deref e _ | .field e _ _ | .addr e | .strLen e | .strPtr e => e.calls
  | .index base position _ _ => base.calls ++ position.calls
  | .binary _ lhs rhs => lhs.calls ++ rhs.calls
  | .call callee args => (callee, args.length) :: Expr.callsOfAll args

@[inherit_doc Expr.calls]
def Expr.callsOfAll : List Expr → List (Callee × Nat)
  | [] => []
  | e :: es => e.calls ++ Expr.callsOfAll es

end

mutual

/-- The calls in a statement. -/
def Stmt.calls : Stmt → List (Callee × Nat)
  | .assign _ value => value.calls
  | .branch cond yes no => cond.calls ++ Stmt.callsOfAll yes ++ Stmt.callsOfAll no
  | .loop init cond post body =>
    Stmt.callsOfOption init ++ cond.calls ++ Stmt.callsOfOption post ++ Stmt.callsOfAll body
  | .label _ | .goto _ | .ret none => []
  | .ret (some value) => value.calls

@[inherit_doc Stmt.calls]
def Stmt.callsOfOption : Option Stmt → List (Callee × Nat)
  | none => []
  | some stmt => stmt.calls

@[inherit_doc Stmt.calls]
def Stmt.callsOfAll : List Stmt → List (Callee × Nat)
  | [] => []
  | stmt :: body => stmt.calls ++ Stmt.callsOfAll body

end

/-- The calls in a function. -/
def Function.calls (f : Function) : List (Callee × Nat) :=
  Stmt.callsOfAll f.body

section Calls

variable {call : Callee × Nat}

theorem Expr.mem_callsOfAll {es : List Expr} :
    call ∈ Expr.callsOfAll es ↔ ∃ e ∈ es, call ∈ e.calls := by
  induction es with
  | nil => simp [callsOfAll]
  | cons e es ih => simp only [callsOfAll, List.mem_append, ih, List.mem_cons, exists_eq_or_imp]

theorem Stmt.mem_callsOfAll {body : List Stmt} :
    call ∈ Stmt.callsOfAll body ↔ ∃ stmt ∈ body, call ∈ stmt.calls := by
  induction body with
  | nil => simp [callsOfAll]
  | cons stmt body ih => simp only [callsOfAll, List.mem_append, ih, List.mem_cons, exists_eq_or_imp]

theorem Stmt.mem_callsOfOption {stmt : Option Stmt} :
    call ∈ Stmt.callsOfOption stmt ↔ ∃ s ∈ stmt, call ∈ s.calls := by
  cases stmt <;> simp [callsOfOption]

end Calls

section Typed

variable {table : TypeTable} {callable callable' : Callee → Nat → Prop} {f : Function}

theorem Expr.HasType.calls {e : Expr} {type : ExprType} (h : e.HasType table callable f type) :
    ∀ call ∈ e.calls, callable call.1 call.2 := by
  induction h with
  | var | const | bool => rintro call ⟨⟩
  | ofBool _ ih => exact ih
  | deref _ _ ih | field _ _ _ ih | addr _ ih | strLen _ _ ih | strPtr _ _ ih => exact ih
  | elem _ _ _ ih ih' => exact fun call hcall => (List.mem_append.1 hcall).elim (ih call) (ih' call)
  | equalPlaces _ _ _ ih ih' | equalWords _ _ ih ih' | lt _ _ ih ih' | add _ _ ih ih' | and _ _ ih ih' =>
    exact fun call hcall => (List.mem_append.1 hcall).elim (ih call) (ih' call)
  | call hcallable _ ih =>
    intro call hcall
    rcases List.mem_cons.1 hcall with rfl | hcall
    · exact hcallable
    · obtain ⟨e, he, hcall⟩ := Expr.mem_callsOfAll.1 hcall
      exact ih e he call hcall

theorem Stmt.Typed.calls {stmt : Stmt} (h : stmt.Typed table callable f) :
    ∀ call ∈ stmt.calls, callable call.1 call.2 := by
  induction h with
  | assign _ hvalue => exact hvalue.calls
  | branch hcond _ _ ihYes ihNo =>
    intro call hcall
    rw [Stmt.calls, List.mem_append, List.mem_append, Stmt.mem_callsOfAll, Stmt.mem_callsOfAll] at hcall
    rcases hcall with (hcall | ⟨stmt, hstmt, hcall⟩) | ⟨stmt, hstmt, hcall⟩
    · exact hcond.calls call hcall
    · exact ihYes stmt hstmt call hcall
    · exact ihNo stmt hstmt call hcall
  | loop _ hcond _ _ ihInit ihPost ihBody =>
    intro call hcall
    rw [Stmt.calls, List.mem_append, List.mem_append, List.mem_append, Stmt.mem_callsOfAll,
      Stmt.mem_callsOfOption, Stmt.mem_callsOfOption] at hcall
    rcases hcall with ((⟨stmt, hstmt, hcall⟩ | hcall) | ⟨stmt, hstmt, hcall⟩) | ⟨stmt, hstmt, hcall⟩
    · exact ihInit stmt hstmt call hcall
    · exact hcond.calls call hcall
    · exact ihPost stmt hstmt call hcall
    · exact ihBody stmt hstmt call hcall
  | label | goto | result => rintro call ⟨⟩
  | ret hvalue => exact hvalue.calls

/-- Well-typed functions make no calls but those that can be made. -/
theorem Function.Typed.calls (h : f.Typed table callable) :
    ∀ call ∈ f.calls, callable call.1 call.2 := by
  intro call hcall
  obtain ⟨stmt, hstmt, hcall⟩ := Stmt.mem_callsOfAll.1 hcall
  exact (h.body stmt hstmt).calls call hcall

/-! ### More calls -/

theorem Expr.HasType.mono (hcallable : ∀ callee count, callable callee count → callable' callee count)
    {e : Expr} {type : ExprType} (h : e.HasType table callable f type) :
    e.HasType table callable' f type := by
  induction h with
  | var hvar => exact .var hvar
  | const value => exact .const value
  | bool value => exact .bool value
  | ofBool _ ih => exact .ofBool ih
  | deref ty _ ih => exact .deref ty ih
  | field _ hget hfield ih => exact .field ih hget hfield
  | elem _ hkind _ ih ih' => exact .elem ih hkind ih'
  | addr _ ih => exact .addr ih
  | strLen _ hbase ih => exact .strLen ih hbase
  | strPtr _ hbase ih => exact .strPtr ih hbase
  | equalPlaces _ _ hbase ih ih' => exact .equalPlaces ih ih' hbase
  | equalWords _ _ ih ih' => exact .equalWords ih ih'
  | lt _ _ ih ih' => exact .lt ih ih'
  | add _ _ ih ih' => exact .add ih ih'
  | and _ _ ih ih' => exact .and ih ih'
  | call hcall _ ih => exact .call (hcallable _ _ hcall) ih

theorem Stmt.Typed.mono (hcallable : ∀ callee count, callable callee count → callable' callee count)
    {stmt : Stmt} (h : stmt.Typed table callable f) : stmt.Typed table callable' f := by
  induction h with
  | assign hvar hvalue => exact .assign hvar (hvalue.mono hcallable)
  | branch hcond _ _ ihYes ihNo => exact .branch (hcond.mono hcallable) ihYes ihNo
  | loop _ hcond _ _ ihInit ihPost ihBody => exact .loop ihInit (hcond.mono hcallable) ihPost ihBody
  | label id => exact .label id
  | goto hlabel => exact .goto hlabel
  | ret hvalue => exact .ret (hvalue.mono hcallable)
  | result hresult hvar htype => exact .result hresult hvar htype

/-- Functions stay well typed when more can be called. -/
theorem Function.Typed.mono
    (hcallable : ∀ callee count, callable callee count → callable' callee count)
    (h : f.Typed table callable) : f.Typed table callable' :=
  ⟨h.params, h.args, fun stmt hstmt => (h.body stmt hstmt).mono hcallable, h.leaves⟩

end Typed

end HashEq
