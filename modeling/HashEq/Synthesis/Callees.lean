import HashEq.Synthesis.Equality
import HashEq.Synthesis.Hash

/-!
# The functions that a generated function needs

A generated function calls those of the types that its type is laid out from.
These have smaller numbers, so the functions that one function needs, directly or
through others, can be generated before it, and there is an end to them.

* `TypeTable.synthesize`: the function for a purpose and a type;
* `TypeTable.callees`: the types whose functions it needs;
* `TypeTable.callees_lt`: these have smaller numbers.
-/

namespace HashEq

namespace TypeTable

variable (table : TypeTable)

/-- The function for a purpose and a type. -/
def synthesize (purpose : Purpose) (ty : TypeId) : Except RequestError Function :=
  match purpose with
  | .hash => table.hashFunction ty
  | .equality => table.equalityFunction ty

/-- Whether a function is generated for a type. -/
def isSpecial (ty : TypeId) : Bool :=
  table.base ty == .special

/-- The types of the named fields of a struct that have functions of their own. -/
def specialFields (ty : TypeId) : List TypeId :=
  ((table.fields ty).filter fun field => !field.isBlank && table.isSpecial field.ty).map (·.ty)

/-- The type itself, if it has functions of its own. -/
def ownCallee (ty : TypeId) : List TypeId :=
  if table.isSpecial ty then [ty] else []

/-- The types whose equality functions are needed to compare elements of a given type. Those that
    the fields of a struct need are taken up even if the struct's own function is called. -/
def elementCallees (elem : TypeId) : List TypeId :=
  match table.kind elem with
  | .struct _ _ =>
    table.specialFields elem ++ if table.comparesInPasses elem then [] else table.ownCallee elem
  | _ => table.ownCallee elem

/-- The types whose functions the function generated for a type needs, in the order in which it
    takes them up. -/
def callees (purpose : Purpose) (ty : TypeId) : List TypeId :=
  match purpose, table.kind ty with
  | .hash, .array elem _ => table.ownCallee elem
  | .equality, .array elem _ => table.elementCallees elem
  | _, .struct _ _ => table.specialFields ty
  | _, _ => []

variable {table}

theorem specialFields_lt {ty callee : TypeId} (h : callee ∈ table.specialFields ty) :
    callee.raw < ty.raw := by
  obtain ⟨field, hf, rfl⟩ := List.mem_map.1 h
  exact part_lt_of_mem (Entry.field_mem_parts (List.mem_filter.1 hf).1)

theorem eq_of_mem_ownCallee {ty callee : TypeId} (h : callee ∈ table.ownCallee ty) :
    callee = ty := by
  unfold ownCallee at h
  split at h
  · exact List.mem_singleton.1 h
  · cases h

theorem elementCallees_le {elem callee : TypeId} (h : callee ∈ table.elementCallees elem) :
    callee = elem ∨ callee.raw < elem.raw := by
  unfold elementCallees at h
  split at h
  · rcases List.mem_append.1 h with h | h
    · exact .inr (specialFields_lt h)
    · split at h
      · cases h
      · exact .inl (eq_of_mem_ownCallee h)
  · exact .inl (eq_of_mem_ownCallee h)

/-- A generated function needs only functions of types with smaller numbers. -/
theorem callees_lt {purpose : Purpose} {ty callee : TypeId}
    (h : callee ∈ table.callees purpose ty) : callee.raw < ty.raw := by
  unfold callees at h
  split at h
  · next elem len hk =>
    cases eq_of_mem_ownCallee h
    exact part_lt_of_mem (Entry.elem_mem_parts hk)
  · next elem len hk =>
    have helem : elem.raw < ty.raw := part_lt_of_mem (Entry.elem_mem_parts hk)
    rcases elementCallees_le h with rfl | h
    · exact helem
    · exact UInt32.lt_trans h helem
  · exact specialFields_lt h
  · cases h

end TypeTable

end HashEq
