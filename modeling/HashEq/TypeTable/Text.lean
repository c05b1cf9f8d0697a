import HashEq.TypeTable.Basic

/-!
# The text of a type

Types are written as in source code. The text of a type is also the part of the
generated symbols that names it.

* `TypeTable.text`: the text of a type.
-/

namespace HashEq

namespace TypeTable

variable (table : TypeTable)

/-- The text of a type whose parts nest at most `depth` deep. -/
def textWithin : Nat → TypeId → Except Fault String
  | 0, ty =>
    -- A primitive type is written by its name, which takes no depth.
    match ty.name? with
    | some name => return name
    | none => throw .unending
  | depth + 1, ty =>
    match ty.name? with
    | some name => return name
    | none => do
      let e ← table.get ty
      match e.kind with
      | .pointer elem => return "*" ++ (← textWithin depth elem)
      | .chan elem => return "chan " ++ (← textWithin depth elem)
      | .slice elem => return "[]" ++ (← textWithin depth elem)
      | .map key value =>
        return "map[" ++ (← textWithin depth key) ++ "]" ++ (← textWithin depth value)
      | .func params results =>
        let params ← params.mapM fun param => textWithin depth param
        let results ← results.mapM fun result => textWithin depth result
        let answer :=
          match results with
          | [] => ""
          | [result] => " " ++ result
          | results => " (" ++ ", ".intercalate results ++ ")"
        return "func(" ++ ", ".intercalate params ++ ")" ++ answer
      | .interface name => return name
      | .array elem len => return "[" ++ toString len.toNat ++ "]" ++ (← textWithin depth elem)
      | .struct (some name) _ =>
        return if e.ordinal = 0 then name else name ++ "·" ++ toString e.ordinal
      | .struct none [] => return "struct \x7b\x7d"
      | .struct none members =>
        let fields ← members.mapM fun member => do
          return member.name.getD "_" ++ " " ++ (← textWithin depth member.ty)
        return "struct \x7b " ++ "; ".intercalate fields ++ " \x7d"
      | .opaqueMemory size align =>
        return "opaque[" ++ toString size.toNat ++ ", align " ++ toString align.toNat ++ "]"
      | _ => return "<primitive>"

/-- The text of a type. Types nest no deeper than the table is long, except one that
    contains itself, which has no text. -/
def text (ty : TypeId) : Except Fault String :=
  table.textWithin table.size ty

end TypeTable

end HashEq
