import HashEq.TypeTable.Runs

/-!
# Layout

What a table is to know about a new type follows from its kind and from the types
that it is put together from: how values lie in memory, the base algorithm and
the flags. The numbers of a layout have to fit into words.

* `TypeTable.layout`, `TypeTable.baseOf`, `TypeTable.flagsOf`: the three parts;
* `TypeTable.entryOf`: all of it;
* `TypeTable.get_of_mem_parts`: the parts of a type that can be laid out are
  types of the table.
-/

namespace HashEq

namespace TypeTable

variable (table : TypeTable)

/-- Places declared fields one after the other from offset `stop` on, each at the next multiple
    of its alignment. Also answers where the last one ends. -/
def placeMembers (stop : Word) : List Member → Except Fault (List Field × Word)
  | [] => .ok ([], stop)
  | member :: members => do
    let e ← table.get member.ty
    let offset ← Word.roundUp e.align stop
    let stop ← Word.add offset e.size
    let (fields, stop) ← placeMembers stop members
    return ({ member with offset } :: fields, stop)

/-- How values of a kind lie in memory. -/
def layout (kind : Kind) : Except Fault Layout :=
  let pointer := table.target.pointerSize
  let wide := table.target.wideAlign
  match kind with
  | .bool | .int8 | .uint8 => .ok ⟨[], 1, 1⟩
  | .int16 | .uint16 => .ok ⟨[], 2, 2⟩
  | .int32 | .uint32 | .float32 => .ok ⟨[], 4, 4⟩
  | .int64 | .uint64 | .float64 => .ok ⟨[], 8, wide⟩
  | .complex64 => .ok ⟨[], 8, 4⟩
  | .complex128 => .ok ⟨[], 16, wide⟩
  | .uintptr | .unsafePointer | .pointer _ | .chan _ | .map _ _ | .func _ _ =>
    .ok ⟨[], pointer, pointer⟩
  | .string | .any | .interface _ => return ⟨[], ← Word.mul 2 pointer, pointer⟩
  | .slice _ => return ⟨[], ← Word.mul 3 pointer, pointer⟩
  | .opaqueMemory size align => .ok ⟨[], size, align⟩
  | .array elem len => do
    let e ← table.get elem
    -- An array too large for any memory is still a type; it has the largest size there is.
    return ⟨[], Word.saturatingMul e.size len, e.align⟩
  | .struct _ members => do
    let (fields, stop) ← table.placeMembers 0 members
    let align := (fields.map fun field => table.alignOf field.ty).foldl max 1
    return ⟨fields, ← Word.roundUp align stop, align⟩

/-- The base algorithm of a struct of `size` bytes. A lone named field is treated as its type;
    otherwise blank fields, gaps and fields that are not plain memory make the struct special. -/
def structBase (size : Word) (fields : List Field) : BaseAlgorithm :=
  match fields with
  | [⟨⟨some _, ty⟩, _⟩] => table.base ty
  | _ =>
    if fields.any fun field => table.base field.ty == .noEquality then .noEquality
    else if (followed size fields).any fun (field, next) =>
        field.isBlank || !table.isMemory field.ty || table.isPadded field next then .special
    else .memory

/-- The base algorithm of `len` values in a row. -/
def arrayBase (elem : BaseAlgorithm) (len : Word) : BaseAlgorithm :=
  if elem = .memory ∨ elem = .noEquality then elem
  else if len = 0 then .memory
  else if len = 1 then elem
  else .special

/-- The base algorithm of a kind that lies in memory as `layout`. -/
def baseOf (kind : Kind) (layout : Layout) : BaseAlgorithm :=
  match kind with
  | .bool | .int8 | .int16 | .int32 | .int64 | .uint8 | .uint16 | .uint32 | .uint64 | .uintptr
  | .unsafePointer | .pointer _ | .chan _ | .opaqueMemory _ _ => .memory
  | .float32 => .float32
  | .float64 => .float64
  | .complex64 => .complex64
  | .complex128 => .complex128
  | .string => .string
  | .any => .nilInterface
  | .interface _ => .interface
  | .slice _ | .map _ _ | .func _ _ => .noEquality
  | .array elem len => arrayBase (table.base elem) len
  | .struct _ _ => table.structBase layout.size layout.fields

/-- The flags of a kind that lies in memory as `layout`. -/
def flagsOf (kind : Kind) (layout : Layout) : TypeFlags :=
  match kind with
  | .any | .interface _ => ⟨true, false, false, false⟩
  | .array elem _ => ⟨table.canPanic elem, true, false, false⟩
  | .struct name _ =>
    { canPanic := layout.fields.any fun field => !field.isBlank && table.canPanic field.ty
      isAggregate := true
      hasPadding := (followed layout.size layout.fields).any fun (field, next) =>
        table.isPadded field next
      isNamed := name.isSome }
  | _ => ⟨false, false, false, false⟩

/-- The number of structs declared under the name of `kind`, if it has one. -/
def ordinalOf (kind : Kind) : Nat :=
  match kind.structName? with
  | some name => table.entries.countP fun e => e.kind.structName? == some name
  | none => 0

/-- What the table is to know about a type of a new kind. -/
def entryOf (kind : Kind) : Except Fault Entry := do
  let layout ← table.layout kind
  return { layout with
    kind
    base := table.baseOf kind layout
    flags := table.flagsOf kind layout
    ordinal := table.ordinalOf kind }

variable {table}

theorem get_of_placeMembers {members : List Member} {start stop : Word} {fields : List Field}
    (h : table.placeMembers start members = .ok (fields, stop)) :
    ∀ field ∈ fields, ∃ e, table.get field.ty = .ok e := by
  induction members generalizing start fields with
  | nil =>
    cases h
    exact fun _ hf => absurd hf List.not_mem_nil
  | cons member members ih =>
    obtain ⟨e, he, h⟩ := bind_eq_ok_iff.1 h
    obtain ⟨offset, _, h⟩ := bind_eq_ok_iff.1 h
    obtain ⟨next, _, h⟩ := bind_eq_ok_iff.1 h
    obtain ⟨⟨rest, last⟩, hrest, h⟩ := bind_eq_ok_iff.1 h
    cases h
    intro field hf
    cases hf with
    | head => exact ⟨e, he⟩
    | tail _ hf => exact ih hrest field hf

/-- Only structs and arrays have parts. -/
theorem fields_of_layout {kind : Kind} {layout : Layout} (h : table.layout kind = .ok layout)
    (hkind : ∀ name members, kind ≠ .struct name members) : layout.fields = [] := by
  cases kind with
  | struct name members => exact absurd rfl (hkind name members)
  | array _ _ | string | any | interface _ | slice _ =>
    obtain ⟨_, _, h⟩ := bind_eq_ok_iff.1 h
    cases h
    rfl
  | _ =>
    cases h
    rfl

/-- The parts of a type that can be laid out are types of the table. -/
theorem get_of_mem_parts {kind : Kind} {e : Entry} (h : table.entryOf kind = .ok e) :
    ∀ ty ∈ e.parts, ∃ e', table.get ty = .ok e' := by
  obtain ⟨layout, hlayout, h⟩ := bind_eq_ok_iff.1 h
  cases h
  intro ty hty
  rcases List.mem_append.1 hty with helem | hfield
  · -- The element of an array is looked up for its size.
    cases kind with
    | array elem len =>
      obtain ⟨e, he, _⟩ := bind_eq_ok_iff.1 hlayout
      cases List.mem_singleton.1 helem
      exact ⟨e, he⟩
    | _ => cases helem
  · -- Only structs have fields, and each of them is looked up for its size.
    obtain ⟨field, hf, rfl⟩ := List.mem_map.1 hfield
    cases kind with
    | struct name members =>
      obtain ⟨⟨fields, stop⟩, hplaced, hlayout⟩ := bind_eq_ok_iff.1 hlayout
      obtain ⟨size, _, hlayout⟩ := bind_eq_ok_iff.1 hlayout
      cases hlayout
      exact get_of_placeMembers hplaced field hf
    | _ =>
      have hnil := fields_of_layout hlayout (by simp)
      simp only at hf
      rw [hnil] at hf
      cases hf

end TypeTable

end HashEq
