import HashEq.Proofs.Machine.Atoms
import HashEq.Proofs.Machine.Consistency
import HashEq.Proofs.Machine.TableChecks

/-!
# When comparing can panic

Only what an interface holds keeps values from being compared and hashed. A type is
flagged if it is put together from an interface, be it as the element of an array
without elements. Values of all other types with equality are compared and hashed
without a panic.

* `TypeTable.Comprises`: what a type is put together from;
* `TypeTable.canPanic_iff`: the flag tells whether there is an interface;
* `Leaves.equalWithin_isOk`, `Leaves.hashWithin_isOk`: images of types without the flag;
* `Machine.canPanic_exact`: what the flag means for machines.
-/

namespace HashEq

open Session TypeTable

namespace TypeTable

/-- A type is put together from a part: it is the part, or its elements are, however many there
    are, or one of its fields is that is not blank. -/
inductive Comprises (table : TypeTable) : TypeId → TypeId → Prop
  | self (ty : TypeId) : Comprises table ty ty
  | elem {ty elem part : TypeId} {e : Entry} {len : Word} : table.get ty = .ok e →
      e.kind = .array elem len → Comprises table elem part → Comprises table ty part
  | field {ty part : TypeId} {e : Entry} {field : Field} : table.get ty = .ok e → field ∈ e.fields →
      field.isBlank = false → Comprises table field.ty part → Comprises table ty part

variable {table : TypeTable} {ty part : TypeId} {e : Entry}

/-- Types that are not there are flagged no more than they are interfaces. -/
theorem canPanic_missing {f : Fault} (hget : table.get ty = .error f) :
    table.canPanic ty = false ∧ (table.kind ty).isInterface = false := by
  have hentry : table.entry ty = default := by rw [entry, hget]
  rw [canPanic, flags, kind, hentry]
  exact ⟨rfl, rfl⟩

theorem canPanic_of_isLeaf (h : Lawful table) (hget : table.get ty = .ok e)
    (hkind : e.kind.isLeaf = true) : table.canPanic ty = false := by
  have hflags := (h.laidOut hget).flags
  rw [canPanic, flags, entry_of_get hget, hflags]
  cases hkind' : e.kind with
  | array _ _ | struct _ _ | any | interface _ =>
    rw [hkind'] at hkind
    cases hkind
  | _ => rfl

/-- A struct is flagged if one of its fields is that is not blank. -/
theorem exists_field_of_canPanic (h : Lawful table) (hget : table.get ty = .ok e)
    {name : Option String} {members : List Member} (hkind : e.kind = .struct name members)
    (hpanic : table.canPanic ty = true) :
    ∃ field ∈ e.fields, field.isBlank = false ∧ table.canPanic field.ty = true := by
  have hflags := (h.laidOut hget).flags
  rw [hkind] at hflags
  rw [canPanic, flags, entry_of_get hget, hflags] at hpanic
  obtain ⟨field, hf, hfield⟩ := List.any_eq_true.1 hpanic
  rw [Bool.and_eq_true, Bool.not_eq_true'] at hfield
  exact ⟨field, hf, hfield⟩

/-- A type is flagged exactly if it is put together from an interface. -/
theorem canPanic_iff (h : Lawful table) : table.canPanic ty = true ↔
    ∃ part, table.Comprises ty part ∧ (table.kind part).isInterface = true := by
  constructor
  · intro hpanic
    induction ty using byParts table with
    | missing ty f hget =>
      rw [(canPanic_missing hget).1] at hpanic
      cases hpanic
    | leaf ty e hget hkind =>
      rcases hkind with hkind | hkind
      · rw [canPanic_of_isLeaf h hget hkind] at hpanic
        cases hpanic
      · exact ⟨ty, .self ty, by rwa [kind_of_get hget]⟩
    | array ty e elem len hget hkind ih =>
      rw [canPanic_elem h hget hkind] at hpanic
      obtain ⟨part, hpart, hinterface⟩ := ih hpanic
      exact ⟨part, .elem hget hkind hpart, hinterface⟩
    | struct ty e name members hget hkind ih =>
      obtain ⟨field, hf, hblank, hfield⟩ := exists_field_of_canPanic h hget hkind hpanic
      obtain ⟨part, hpart, hinterface⟩ := ih field hf hfield
      exact ⟨part, .field hget hf hblank hpart, hinterface⟩
  · -- The flag of an interface is passed on to all that is put together from it.
    rintro ⟨part, hpart, hinterface⟩
    induction hpart with
    | self ty =>
      cases hget : table.get ty with
      | error f =>
        rw [(canPanic_missing hget).2] at hinterface
        cases hinterface
      | ok e =>
        rw [kind_of_get hget] at hinterface
        exact canPanic_of_isInterface h hget hinterface
    | elem hget hkind _ ih =>
      rw [canPanic_elem h hget hkind]
      exact ih hinterface
    | field hget hf hblank _ ih =>
      -- Were the struct not flagged, its field would not be either.
      refine Bool.of_not_eq_false fun hcalm => ?_
      rw [canPanic_field h hget hf hblank hcalm] at ih
      cases ih hinterface

end TypeTable

/-! ### Images of types without interfaces -/

namespace Leaves

variable {table : TypeTable} {arena : Arena} {ty : TypeId} {p q : Word} {n : Nat}

theorem equalWithin_isOk (h : Lawful table) (hpointer : table.target.pointerSize.toNat ≤ 8)
    (hcalm : table.canPanic ty = false) (hp : ImageWithin table arena n ty p)
    (hq : ImageWithin table arena n ty q) : ∃ b, equalWithin table arena n ty p q = .ok b := by
  cases n with
  | zero => exact hp.elim
  | succ n => exact equalVia_isOk h hpointer (.inr hcalm) hp.readable hq.readable _

theorem hashWithin_isOk (h : Lawful table) (hpointer : table.target.pointerSize.toNat ≤ 8)
    (hcalm : table.canPanic ty = false) (hp : ImageWithin table arena n ty p) (seed : Word) :
    ∃ state, hashWithin table arena n ty p seed = .ok state := by
  cases n with
  | zero => exact hp.elim
  | succ n => exact hashVia_isOk h hpointer (.inr hcalm) hp.readable _ seed

end Leaves

/-! ### Machines -/

namespace Machine

/-- Exactly the types that are put together from interfaces are flagged, and the values of all
    others that have equality are compared and hashed without a panic, by any machine. -/
theorem canPanic_exact {table : TypeTable} (hbuilt : Built table) (ty : TypeId) :
    (table.canPanic ty = true ↔
      ∃ part, table.Comprises ty part ∧ (table.kind part).isInterface = true) ∧
    (table.target.pointerSize.toNat ≤ 8 → table.TextsDistinct → table.Has ty →
      table.base ty ≠ .noEquality → table.canPanic ty = false →
      ∀ machine, Reachable table machine → ∀ p q, Image table machine.arena ty p →
        Image table machine.arena ty q → ∀ seed,
          (∃ b, (equal ty p q machine).1 = .ok b) ∧
            ∃ state, (hash ty p seed machine).1 = .ok state) := by
  have h := hbuilt.lawful
  have hplaces := placeNumber_lt
  refine ⟨canPanic_iff h, ?_⟩
  intro hpointer hdistinct hty hne hcalm machine hmachine p q hp hq seed
  rw [equal_eq_leaves hbuilt hpointer hdistinct hmachine hty hne hp hq,
    hash_eq_leaves hbuilt hpointer hdistinct hmachine hty hne hp]
  exact ⟨Leaves.equalWithin_isOk h hpointer hcalm (hp.within hplaces) (hq.within hplaces),
    Leaves.hashWithin_isOk h hpointer hcalm (hp.within hplaces) seed⟩

/-- A record without interfaces is compared and hashed without a panic. The record around it is
    flagged for the value of any type that it also holds. -/
theorem canPanic_exact_records :
    ((∃ b, (equal ⟨33⟩ 4152 4152 recordMachine).1 = .ok b) ∧
      ∃ state, (hash ⟨33⟩ 4152 7 recordMachine).1 = .ok state) ∧
    ∃ part, recordTable.Comprises ⟨35⟩ part ∧ (recordTable.kind part).isInterface = true :=
  have hp : Image recordTable recordArena ⟨33⟩ 4152 := .of_within imageWithin_recordArena.2.2
  ⟨(canPanic_exact built_recordTable ⟨33⟩).2 (by decide +kernel) textsDistinct_recordTable
    (by decide +kernel) (by decide +kernel) (by decide +kernel) recordMachine
    reachable_recordMachine 4152 4152 hp hp 7,
  (canPanic_exact built_recordTable ⟨35⟩).1.1 (by decide +kernel)⟩

end Machine

end HashEq
