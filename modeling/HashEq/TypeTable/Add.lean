import HashEq.Action
import HashEq.TypeTable.Layout

/-!
# Adding types

A type is added by its kind. A kind that the table holds already keeps its number;
a new one is laid out, given a number and put at the end. When its layout does not
fit into words, or no number is left, the addition faults. By then it has changed
nothing.

* `TableM.add`: adds a type;
* `TypeTable.add`, `TypeTable.declare`: what that answers, and the table that it leaves;
* `TableM.append_cases`: what putting a type at the end does;
* `TypeTable.declare_of_add_eq_error`: an addition that faults leaves the table as it is;
* `TypeTable.ofTarget`: the table of the primitive types.
-/

namespace HashEq

namespace TypeTable

variable (table : TypeTable)

/-- The type of a given kind, if the table holds it. -/
def find? (kind : Kind) : Option TypeId :=
  (table.entries.findIdx? (·.kind == kind)).bind fun i => (TypeId.ofSlot i).toOption

/-- Puts a type at the end of the table. -/
def push (e : Entry) (h : ∀ ty ∈ e.parts, ∃ e', table.get ty = .ok e') : TypeTable where
  target := table.target
  entries := table.entries.push e
  parts_lt := by
    intro i hi ty hty
    rw [Array.getElem_push] at hty
    split at hty
    · next hlt => exact table.parts_lt i hlt ty hty
    · obtain ⟨e', he'⟩ := h ty hty
      obtain ⟨j, hj, hget⟩ := get_eq_ok_iff.1 he'
      obtain ⟨hlt, _⟩ := Array.getElem?_eq_some_iff.1 hget
      rw [TypeId.raw_of_slot hj]
      exact TypeId.numberOfSlot_lt (by omega)

theorem size_push (e : Entry) (h : ∀ ty ∈ e.parts, ∃ e', table.get ty = .ok e') :
    (table.push e h).size = table.size + 1 :=
  Array.size_push e

/-- What the table knows about a type stays as it is. -/
theorem get_push {e : Entry} {h : ∀ ty ∈ e.parts, ∃ e', table.get ty = .ok e'} {ty : TypeId}
    {known : Entry} (hknown : table.get ty = .ok known) : (table.push e h).get ty = .ok known := by
  obtain ⟨i, hi, hget⟩ := get_eq_ok_iff.1 hknown
  obtain ⟨hlt, _⟩ := Array.getElem?_eq_some_iff.1 hget
  refine get_eq_ok_iff.2 ⟨i, hi, ?_⟩
  rw [push, Array.getElem?_push_lt hlt, ← hget, Array.getElem?_eq_getElem hlt]

/-- What the table is to know about a type of a new kind, which is put together from its types. -/
def newEntry (kind : Kind) :
    Except Fault { e : Entry // ∀ ty ∈ e.parts, ∃ e', table.get ty = .ok e' } :=
  match h : table.entryOf kind with
  | .ok e => .ok ⟨e, get_of_mem_parts h⟩
  | .error f => .error f

end TypeTable

/-- A change to a table: what is changed before it faults stays. -/
abbrev TableM := ExceptT Fault (StateM TypeTable)

namespace TableM

/-- Puts a type of a new kind at the end. -/
def append (kind : Kind) : TableM TypeId := do
  let table ← get
  let e ← table.newEntry kind
  let ty ← TypeId.ofSlot table.size
  set (table.push e.1 e.2)
  return ty

/-- The type of a given kind, put at the end if the table does not hold it yet. -/
def intern (kind : Kind) : TableM TypeId := do
  match (← get).find? kind with
  | some ty => return ty
  | none => append kind

/-- Adds a type. The alignment of opaque memory is a power of two; zero stands for one. -/
def add (kind : Kind) : TableM TypeId :=
  match kind with
  | .opaqueMemory size align =>
    if align = 0 ∨ isPowerOfTwo align.toNat then intern (.opaqueMemory size (max align 1))
    else throw .assertion
  | kind => intern kind

end TableM

namespace TypeTable

variable (table : TypeTable)

/-- What interning a kind answers, with the table that it leaves then. -/
def intern (kind : Kind) : Except Fault (TypeId × TypeTable) :=
  outcome (TableM.intern kind) table

/-- What adding a type answers, with the table that it leaves then. -/
def add (kind : Kind) : Except Fault (TypeId × TypeTable) :=
  outcome (TableM.add kind) table

/-- The table that adding a type leaves, whether it is answered or faults. -/
def declare (kind : Kind) : TypeTable :=
  (TableM.add kind table).2

/-- The table without any types. -/
def bare (target : Target) : TypeTable where
  target := target
  entries := #[]
  parts_lt := by simp

/-- The table of the primitive types, which have the smallest numbers. -/
def ofTarget (target : Target) : Except Fault TypeTable :=
  if target.isValid then
    Kind.primitives.foldlM (fun table kind => (·.2) <$> table.intern kind) (bare target)
  else .error .assertion

end TypeTable

/-! ### What a change does -/

namespace TypeTable

variable {table : TypeTable} {kind : Kind}

theorem entryOf_of_newEntry_eq_ok {e : { e : Entry // ∀ ty ∈ e.parts, ∃ e', table.get ty = .ok e' }}
    (h : table.newEntry kind = .ok e) : table.entryOf kind = .ok e.1 := by
  unfold newEntry at h
  split at h
  · next hentry =>
    cases h
    exact hentry
  · cases h

theorem newEntry_eq_error_iff {f : Fault} :
    table.newEntry kind = .error f ↔ table.entryOf kind = .error f := by
  unfold newEntry
  split
  · next hentry => exact iff_of_false nofun fun heq => nomatch hentry.symm.trans heq
  · next hentry =>
    constructor
    · rintro ⟨⟩
      exact hentry
    · intro heq
      cases hentry.symm.trans heq
      rfl

end TypeTable

namespace TableM

variable {table later : TypeTable} {kind : Kind} {ty : TypeId}
  {answer : Except Fault TypeId} {f : Fault}

theorem append_apply (kind : Kind) (table : TypeTable) :
    append kind table = match table.newEntry kind, TypeId.ofSlot table.size with
      | .ok e, .ok ty => (.ok ty, table.push e.1 e.2)
      | .ok _, .error f => (.error f, table)
      | .error f, _ => (.error f, table) := by
  change (do
    let e ← table.newEntry kind
    let ty ← TypeId.ofSlot table.size
    set (table.push e.1 e.2)
    return ty : TableM TypeId) table = _
  cases table.newEntry kind with
  | error f => rfl
  | ok e => cases TypeId.ofSlot table.size <;> rfl

/-- A type is put at the end once there are an entry and a number for it. -/
theorem append_cases (h : append kind table = (answer, later)) :
    (∃ ty e hparts, answer = .ok ty ∧ table.entryOf kind = .ok e ∧
        TypeId.ofSlot table.size = .ok ty ∧ later = table.push e hparts) ∨
      ∃ f, answer = .error f ∧ later = table ∧
        (table.entryOf kind = .error f ∨ TypeId.ofSlot table.size = .error f) := by
  rw [append_apply] at h
  cases hentry : table.newEntry kind with
  | error f =>
    rw [hentry] at h
    cases h
    exact .inr ⟨f, rfl, rfl, .inl (TypeTable.newEntry_eq_error_iff.1 hentry)⟩
  | ok e =>
    cases hslot : TypeId.ofSlot table.size with
    | error f =>
      rw [hentry, hslot] at h
      cases h
      exact .inr ⟨f, rfl, rfl, .inr rfl⟩
    | ok ty =>
      rw [hentry, hslot] at h
      cases h
      exact .inl ⟨ty, e.1, e.2, rfl, TypeTable.entryOf_of_newEntry_eq_ok hentry, rfl, rfl⟩

theorem intern_apply (kind : Kind) (table : TypeTable) :
    intern kind table = match table.find? kind with
      | some ty => (.ok ty, table)
      | none => append kind table := by
  rw [intern, get_bind]
  cases table.find? kind <;> rfl

theorem intern_of_find?_eq_some (h : table.find? kind = some ty) :
    intern kind table = (.ok ty, table) := by
  rw [intern_apply, h]

theorem intern_of_find?_eq_none (h : table.find? kind = none) :
    intern kind table = append kind table := by
  rw [intern_apply, h]

theorem intern_of_error (h : intern kind table = (.error f, later)) : later = table := by
  cases hfind : table.find? kind with
  | some ty =>
    rw [intern_of_find?_eq_some hfind] at h
    cases h
  | none =>
    rw [intern_of_find?_eq_none hfind] at h
    rcases append_cases h with ⟨_, _, _, hok, _⟩ | ⟨_, _, hlater, _⟩
    · cases hok
    · exact hlater

/-- An addition that faults has changed nothing by then. -/
theorem add_of_error (h : add kind table = (.error f, later)) : later = table := by
  cases kind with
  | opaqueMemory size align =>
    by_cases halign : align = 0 ∨ isPowerOfTwo align.toNat
    · rw [add, if_pos halign] at h
      exact intern_of_error h
    · rw [add, if_neg halign] at h
      cases h
      rfl
  | _ => exact intern_of_error h

end TableM

namespace TypeTable

variable {table later : TypeTable} {kind : Kind} {ty : TypeId} {f : Fault}

theorem declare_of_add_eq_ok (h : table.add kind = .ok (ty, later)) : table.declare kind = later :=
  congrArg Prod.snd (outcome_eq_ok_iff.1 h)

/-- An addition that faults leaves the table as it is. -/
theorem declare_of_add_eq_error (h : table.add kind = .error f) : table.declare kind = table := by
  obtain ⟨later, hadd⟩ := outcome_eq_error_iff.1 h
  rw [declare, hadd]
  exact TableM.add_of_error hadd

end TypeTable

end HashEq
