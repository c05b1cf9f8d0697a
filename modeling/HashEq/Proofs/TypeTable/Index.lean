import HashEq.Proofs.TypeTable.Interning
import Std.Data.HashMap

/-!
# Tables with an index

To find a type, a table need not be searched. A map leads to the type from its *key*,
the kind together with where the fields lie, a counter for each name tells how many
structs were declared under it, and a map holds the ordinals that are not zero. All
three change only when a type is new.

* `Index.note`: what becomes of the index when a type is new;
* `IndexedM.add`: adds a type to a table with an index;
* `Reflects`: an index says what a search of the table would say;
* `Reflects.intern`, `Reflects.add`: adding a type comes to the same with and without
  an index, which stays right, and stays as it is when the addition faults;
* `table_ofTarget`, `follows_afterFirst`: so do the primitive types, and declarations made
  one after the other.
-/

namespace HashEq

/-- What tells types apart: the kind and, for a struct, where its fields lie. -/
structure Key where
  kind : Kind
  fields : List Field
  deriving DecidableEq, Hashable

/-- The key of a type. -/
def Entry.key (e : Entry) : Key :=
  ⟨e.kind, e.fields⟩

/-- What finds the types of a table without a search. -/
structure Index where
  types : Std.HashMap Key TypeId
  /-- The number of structs declared under a name. -/
  named : Std.HashMap String Nat
  /-- What tells structs from earlier ones declared under their names. -/
  ordinals : Std.HashMap TypeId Nat

namespace Index

/-- The index of a table without types. -/
def empty : Index := ⟨∅, ∅, ∅⟩

/-- The number of structs declared under the name of a kind. -/
def seen (index : Index) (kind : Kind) : Nat :=
  match kind.structName? with
  | some name => index.named.getD name 0
  | none => 0

/-- The index when a type is new. -/
def note (key : Key) (ty : TypeId) (index : Index) : Index where
  types := index.types.insert key ty
  named :=
    match key.kind.structName? with
    | some name => index.named.insert name (index.seen key.kind + 1)
    | none => index.named
  ordinals :=
    if index.seen key.kind = 0 then index.ordinals
    else index.ordinals.insert ty (index.seen key.kind)

variable (index : Index) (key : Key) (ty : TypeId)

theorem getElem?_types_note (k : Key) :
    (index.note key ty).types[k]? = if key = k then some ty else index.types[k]? := by
  rw [note, Std.HashMap.getElem?_insert]
  simp only [beq_iff_eq]

theorem getD_named_note (name : String) : (index.note key ty).named.getD name 0 =
    index.named.getD name 0 + if key.kind.structName? = some name then 1 else 0 := by
  rw [note]
  cases hname : key.kind.structName? with
  | none => rfl
  | some other =>
    have hseen : index.seen key.kind = index.named.getD other 0 := by rw [seen, hname]
    dsimp only
    rw [Std.HashMap.getD_insert, hseen]
    by_cases heq : other = name
    · rw [if_pos (beq_iff_eq.2 heq), if_pos (congrArg some heq), heq]
    · rw [if_neg fun hbeq => heq (eq_of_beq hbeq), if_neg fun hsome => heq (Option.some.inj hsome),
        Nat.add_zero]

theorem getElem?_ordinals_note (t : TypeId) : (index.note key ty).ordinals[t]? =
    if ty = t ∧ index.seen key.kind ≠ 0 then some (index.seen key.kind) else index.ordinals[t]? := by
  change (if index.seen key.kind = 0 then index.ordinals
    else index.ordinals.insert ty (index.seen key.kind))[t]? = _
  by_cases hzero : index.seen key.kind = 0
  · rw [if_pos hzero, if_neg fun h => h.2 hzero]
  · rw [if_neg hzero, Std.HashMap.getElem?_insert]
    simp only [beq_iff_eq, ne_eq, hzero, not_false_eq_true, and_true]

end Index

/-- A table with an index. -/
structure IndexedTable where
  table : TypeTable
  index : Index

/-- A change to a table with an index: what is changed before it faults stays. -/
abbrev IndexedM := ExceptT Fault (StateM IndexedTable)

/-- The key of a kind. To look for a struct, its fields have to be placed. -/
def TypeTable.keyOf (table : TypeTable) (kind : Kind) : Except Fault Key :=
  match kind with
  | .struct _ members => do
    let (fields, _) ← table.placeMembers 0 members
    return ⟨kind, fields⟩
  | _ => return ⟨kind, []⟩

namespace IndexedM

/-- Puts a type at the end, and notes it in the index. The ordinal is what the counter says. -/
def append (key : Key) : IndexedM TypeId := do
  let ⟨table, index⟩ ← get
  let ⟨e, hparts⟩ ← table.newEntry key.kind
  let ty ← TypeId.ofSlot table.size
  set (⟨table.push { e with ordinal := index.seen key.kind } hparts, index.note key ty⟩ : IndexedTable)
  return ty

/-- The type of a given kind, put at the end if the index does not have it yet. -/
def intern (kind : Kind) : IndexedM TypeId := do
  let ⟨table, index⟩ ← get
  let key ← table.keyOf kind
  match index.types[key]? with
  | some ty => return ty
  | none => append key

/-- Adds a type. The alignment of opaque memory is a power of two; zero stands for one. -/
def add (kind : Kind) : IndexedM TypeId :=
  match kind with
  | .opaqueMemory size align =>
    if align = 0 ∨ isPowerOfTwo align.toNat then intern (.opaqueMemory size (max align 1))
    else throw .assertion
  | kind => intern kind

end IndexedM

namespace TypeTable

variable {table : TypeTable} {kind : Kind} {key : Key} {ty : TypeId} {e : Entry} {f : Fault}

/-! ### Keys -/

/-- A kind that can be laid out has a key. -/
theorem keyOf_of_layout {layout : Layout} (h : table.layout kind = .ok layout) :
    table.keyOf kind = .ok ⟨kind, layout.fields⟩ := by
  cases kind with
  | struct name members =>
    obtain ⟨stop, hplaced, _⟩ := layout_struct h
    exact bind_eq_ok_iff.2 ⟨_, hplaced, rfl⟩
  | _ =>
    rw [fields_of_layout h (by simp)]
    rfl

theorem kind_of_keyOf (h : table.keyOf kind = .ok key) : key.kind = kind := by
  cases kind with
  | struct name members =>
    obtain ⟨_, _, h⟩ := bind_eq_ok_iff.1 h
    cases h
    rfl
  | _ =>
    cases h
    rfl

/-- A kind without a key is a struct whose fields cannot be placed. -/
theorem layout_of_keyOf_eq_error (h : table.keyOf kind = .error f) : table.layout kind = .error f := by
  cases kind with
  | struct name members =>
    rcases bind_eq_error_iff.1 h with hplaced | ⟨_, _, h⟩
    · exact bind_eq_error_iff.2 (.inl hplaced)
    · cases h
  | _ => cases h

theorem Lawful.keyOf_kind (h : Lawful table) (hget : table.get ty = .ok e) :
    table.keyOf e.kind = .ok e.key :=
  keyOf_of_layout (h.laidOut hget).layout

/-- A kind is found if a type has it. -/
theorem Lawful.find?_eq_some_iff (h : Lawful table) :
    table.find? kind = some ty ↔ ∃ e, table.get ty = .ok e ∧ e.kind = kind := by
  refine ⟨get_of_find?, fun ⟨e, hget, hkind⟩ => ?_⟩
  cases hfind : table.find? kind with
  | none =>
    obtain ⟨i, _, hi⟩ := get_eq_ok_iff.1 hget
    exact absurd hkind (kind_ne_of_find?_eq_none h.numbered hfind hi)
  | some found =>
    obtain ⟨e', hget', hkind'⟩ := get_of_find? hfind
    exact congrArg some (h.eq_of_kind_eq hget' hget (hkind'.trans hkind.symm))

theorem ordinal?_eq (table : TypeTable) (ty : TypeId) : table.ordinal? ty =
    if (table.entry ty).ordinal = 0 then none else some (table.entry ty).ordinal := by
  rw [ordinal?]
  split
  · next heq => rw [if_pos heq]
  · next hne => rw [if_neg hne]

/-- Of a type that a table does not have, nothing is known. -/
theorem entry_of_not_has (h : ¬table.Has ty) : table.entry ty = default := by
  rw [entry]
  cases hget : table.get ty with
  | ok e => exact absurd ⟨e, hget⟩ h
  | error f => rfl

theorem not_has_of_ofSlot (hslot : TypeId.ofSlot table.size = .ok ty) : ¬table.Has ty := fun hty => by
  obtain ⟨i, hi, hlt⟩ := has_iff.1 hty
  cases (TypeId.slot_of_ofSlot hslot).symm.trans hi
  exact Nat.lt_irrefl _ hlt

section Push

variable {new : Entry} {hparts : ∀ ty ∈ new.parts, ∃ e', table.get ty = .ok e'}
  (hslot : TypeId.ofSlot table.size = .ok ty)
include hslot

/-- The types of a table with one more type are those that it had, and the new one. -/
theorem get_push_iff {t : TypeId} : (table.push new hparts).get t = .ok e ↔
    table.get t = .ok e ∨ t = ty ∧ e = new := by
  have hslot' := TypeId.slot_of_ofSlot hslot
  constructor
  · intro hget
    exact (get_of_get_push hget).imp_right fun h => ⟨eq_of_slot_eq h.1 hslot', h.2⟩
  · rintro (hget | ⟨rfl, rfl⟩)
    · exact (extends_push table new hparts).get hget
    · exact get_eq_ok_iff.2 ⟨table.size, hslot', Array.getElem?_push_size⟩

/-- Nothing changes about the other types, and those that the table does not have. -/
theorem entry_push_of_ne {t : TypeId} (hne : t ≠ ty) :
    (table.push new hparts).entry t = table.entry t := by
  by_cases ht : table.Has t
  · exact (extends_push table new hparts).entry_eq ht
  · rw [entry_of_not_has ht, entry_of_not_has]
    rintro ⟨e, hget⟩
    exact ((get_push_iff hslot).1 hget).elim (fun hget => ht ⟨e, hget⟩) fun hnew => hne hnew.1

end Push

end TypeTable

namespace IndexedM

variable {kind : Kind} {key : Key} {s : IndexedTable}

theorem append_apply (key : Key) (s : IndexedTable) :
    append key s = match s.table.newEntry key.kind, TypeId.ofSlot s.table.size with
      | .ok e, .ok ty =>
        (.ok ty, ⟨s.table.push { e.1 with ordinal := s.index.seen key.kind } e.2, s.index.note key ty⟩)
      | .ok _, .error f => (.error f, s)
      | .error f, _ => (.error f, s) := by
  obtain ⟨table, index⟩ := s
  rw [append, get_bind]
  dsimp only
  rw [bind_apply, liftM_apply]
  cases table.newEntry key.kind with
  | error f => rfl
  | ok e =>
    dsimp only
    rw [bind_apply, liftM_apply]
    cases TypeId.ofSlot table.size <;> rfl

theorem intern_apply (kind : Kind) (s : IndexedTable) :
    intern kind s = match s.table.keyOf kind with
      | .error f => (.error f, s)
      | .ok key =>
        match s.index.types[key]? with
        | some ty => (.ok ty, s)
        | none => append key s := by
  obtain ⟨table, index⟩ := s
  rw [intern, get_bind]
  dsimp only
  rw [bind_apply, liftM_apply]
  cases table.keyOf kind with
  | error f => rfl
  | ok key =>
    dsimp only
    cases index.types[key]? <;> rfl

end IndexedM

/-! ### Indexes that are right -/

/-- An index says what a search of the table would say. -/
structure Reflects (s : IndexedTable) : Prop where
  types : ∀ key ty, s.index.types[key]? = some ty ↔ ∃ e, s.table.get ty = .ok e ∧ e.key = key
  named : ∀ name, s.index.named.getD name 0 = s.table.countNamed name
  ordinals : ∀ ty, s.index.ordinals[ty]? = s.table.ordinal? ty

/-- With an index, a change is answered alike, and it leaves the same table and an index that is
    right. A change that faults leaves table and index as they were. -/
structure Follows {α : Type} (s : IndexedTable) (indexed : Except Fault α × IndexedTable)
    (plain : Except Fault α × TypeTable) : Prop where
  answer : indexed.1 = plain.1
  table : indexed.2.table = plain.2
  reflects : Reflects indexed.2
  unchanged : ∀ f, indexed.1 = .error f → indexed.2 = s

namespace Reflects

open TypeTable

variable {s : IndexedTable} {kind : Kind} {key : Key} {ty : TypeId} {e : Entry} (h : Reflects s)
include h

theorem seen_eq (kind : Kind) : s.index.seen kind = s.table.ordinalOf kind := by
  rw [Index.seen, ordinalOf]
  cases kind.structName? with
  | none => rfl
  | some name => exact h.named name

/-- What the index leads to is what a search would find. -/
theorem types_eq (hlawful : Lawful s.table) (hkey : s.table.keyOf kind = .ok key) :
    s.index.types[key]? = s.table.find? kind := by
  refine Option.ext fun ty => ?_
  rw [h.types, hlawful.find?_eq_some_iff]
  refine exists_congr fun e => and_congr_right fun hget => ?_
  constructor
  · rintro rfl
    exact kind_of_keyOf hkey
  · rintro rfl
    exact Except.ok.inj ((hlawful.keyOf_kind hget).symm.trans hkey)

/-- What is known about a new type is the same, as the counter tells the ordinal. -/
theorem withOrdinal_eq (hentry : s.table.entryOf kind = .ok e) :
    { e with ordinal := s.index.seen kind } = e := by
  rw [h.seen_eq, ← (laidOut_of_entryOf hentry).2.2]

/-- Noting a new type keeps the index right. -/
theorem push (hkey : s.table.keyOf kind = .ok key) (hmiss : s.index.types[key]? = none)
    (hentry : s.table.entryOf kind = .ok e) (hslot : TypeId.ofSlot s.table.size = .ok ty)
    (hparts : ∀ ty ∈ e.parts, ∃ e', s.table.get ty = .ok e') :
    Reflects ⟨s.table.push e hparts, s.index.note key ty⟩ := by
  obtain ⟨rfl, hlaid, hordinal⟩ := laidOut_of_entryOf hentry
  obtain rfl : e.key = key := Except.ok.inj ((keyOf_of_layout hlaid.layout).symm.trans hkey)
  have hseen : s.index.seen e.key.kind = e.ordinal := (h.seen_eq _).trans hordinal.symm
  refine ⟨fun k t => ?_, fun name => ?_, fun t => ?_⟩
  · -- types
    change _ ↔ ∃ e', (s.table.push e hparts).get t = .ok e' ∧ e'.key = k
    rw [Index.getElem?_types_note]
    simp only [get_push_iff hslot]
    split
    · next hk =>
      subst hk
      rw [Option.some.injEq]
      refine ⟨fun heq => ⟨e, .inr ⟨heq.symm, rfl⟩, rfl⟩, ?_⟩
      rintro ⟨e', hget | ⟨ht, _⟩, hkey'⟩
      · -- No type had the key.
        rw [(h.types _ t).2 ⟨e', hget, hkey'⟩] at hmiss
        cases hmiss
      · exact ht.symm
    · next hk =>
      rw [h.types]
      refine exists_congr fun e' => and_congr_left fun hkey' => (or_iff_left fun hnew => hk ?_).symm
      rw [← hkey', hnew.2]
  · -- named
    rw [Index.getD_named_note, countNamed_push, h.named]
    rfl
  · -- ordinals
    rw [Index.getElem?_ordinals_note, ordinal?_eq, hseen, h.ordinals, ordinal?_eq]
    by_cases ht : ty = t
    · subst ht
      rw [entry_of_get ((get_push_iff hslot).2 (.inr ⟨rfl, rfl⟩)),
        entry_of_not_has (not_has_of_ofSlot hslot)]
      by_cases hzero : e.ordinal = 0
      · rw [if_neg fun hne => hne.2 hzero, if_pos hzero]
        rfl
      · rw [if_pos ⟨rfl, hzero⟩, if_neg hzero]
    · rw [if_neg fun heq => ht heq.1, entry_push_of_ne hslot (Ne.symm ht)]

/-- A type is put at the end in the same way. -/
theorem append (hkey : s.table.keyOf kind = .ok key) (hmiss : s.index.types[key]? = none) :
    Follows s (IndexedM.append key s) (TableM.append kind s.table) := by
  rw [IndexedM.append_apply, TableM.append_apply, kind_of_keyOf hkey]
  cases hnew : s.table.newEntry kind with
  | error f => exact ⟨rfl, rfl, h, fun _ _ => rfl⟩
  | ok e =>
    cases hslot : TypeId.ofSlot s.table.size with
    | error f => exact ⟨rfl, rfl, h, fun _ _ => rfl⟩
    | ok ty =>
      obtain ⟨e, hparts⟩ := e
      have hentry : s.table.entryOf kind = .ok e := entryOf_of_newEntry_eq_ok hnew
      have hordinal := h.withOrdinal_eq hentry
      dsimp only
      simp only [hordinal]
      exact ⟨rfl, rfl, h.push hkey hmiss hentry hslot hparts, nofun⟩

/-- A kind is found, or put at the end, in the same way. -/
theorem intern (hlawful : Lawful s.table) (kind : Kind) :
    Follows s (IndexedM.intern kind s) (TableM.intern kind s.table) := by
  rw [IndexedM.intern_apply]
  cases hkey : s.table.keyOf kind with
  | error f =>
    -- A kind without a key is in no table, and cannot be laid out.
    have hlayout := layout_of_keyOf_eq_error hkey
    have hnone : s.table.find? kind = none := by
      refine Option.eq_none_iff_forall_ne_some.2 fun ty hfind => ?_
      obtain ⟨e, hget, rfl⟩ := get_of_find? hfind
      cases (hlawful.laidOut hget).layout.symm.trans hlayout
    have hentry : s.table.newEntry kind = .error f :=
      newEntry_eq_error_iff.2 (bind_eq_error_iff.2 (.inl hlayout))
    rw [TableM.intern_of_find?_eq_none hnone, TableM.append_apply, hentry]
    exact ⟨rfl, rfl, h, fun _ _ => rfl⟩
  | ok key =>
    have hfind := h.types_eq hlawful hkey
    dsimp only
    cases hlook : s.index.types[key]? with
    | some ty =>
      rw [TableM.intern_of_find?_eq_some (hfind.symm.trans hlook)]
      exact ⟨rfl, rfl, h, nofun⟩
    | none =>
      rw [TableM.intern_of_find?_eq_none (hfind.symm.trans hlook)]
      exact h.append hkey hlook

/-- A type is added in the same way. -/
theorem add (hlawful : Lawful s.table) (kind : Kind) :
    Follows s (IndexedM.add kind s) (TableM.add kind s.table) := by
  cases kind with
  | opaqueMemory size align =>
    rw [IndexedM.add, TableM.add]
    split
    · exact h.intern hlawful _
    · exact ⟨rfl, rfl, h, fun _ _ => rfl⟩
  | _ => exact h.intern hlawful _

end Reflects

/-! ### One addition after the other -/

namespace IndexedTable

open TypeTable

/-- The table without types, and its index. -/
def bare (target : Target) : IndexedTable :=
  ⟨.bare target, .empty⟩

/-- The table of the primitive types, and its index. -/
def ofTarget (target : Target) : Except Fault IndexedTable :=
  if target.isValid then
    Kind.primitives.foldlM (fun s kind => (·.2) <$> outcome (IndexedM.intern kind) s) (bare target)
  else .error .assertion

/-- What is left of a table and its index after the first `n` of some declarations. -/
def afterFirst (start : IndexedTable) (kinds : List Kind) (n : Nat) : IndexedTable :=
  (kinds.take n).foldl (fun s kind => (IndexedM.add kind s).2) start

theorem reflects_bare (target : Target) : Reflects (bare target) := by
  have hnone : ∀ ty, ¬(TypeTable.bare target).Has ty := fun ty hty => by
    obtain ⟨i, _, hlt⟩ := has_iff.1 hty
    exact Nat.not_lt_zero i hlt
  refine ⟨fun key ty => ?_, fun name => ?_, fun ty => ?_⟩
  · rw [show (bare target).index.types[key]? = none from Std.HashMap.getElem?_empty]
    exact iff_of_false nofun fun ⟨e, hget, _⟩ => hnone ty ⟨e, hget⟩
  · exact Std.HashMap.getD_empty
  · rw [ordinal?_eq, show (bare target).table.entry ty = default from entry_of_not_has (hnone ty)]
    exact Std.HashMap.getElem?_empty

/-- Interning kinds that name no types comes to the same with an index. -/
theorem foldlM_intern {s : IndexedTable} {new : List Kind} (h : Reflects s)
    (hlawful : Lawful s.table) (hnew : ∀ kind ∈ new, kind.refs = [] ∧ kind.IsAligned) :
    (·.table) <$> new.foldlM (fun s kind => (·.2) <$> outcome (IndexedM.intern kind) s) s =
      new.foldlM (fun table kind => (·.2) <$> table.intern kind) s.table ∧
    ∀ later, new.foldlM (fun s kind => (·.2) <$> outcome (IndexedM.intern kind) s) s = .ok later →
      Reflects later := by
  induction new generalizing s with
  | nil =>
    refine ⟨rfl, ?_⟩
    rintro _ ⟨⟩
    exact h
  | cons kind new ih =>
    have hfollows := h.intern hlawful kind
    rw [List.foldlM_cons, List.foldlM_cons, TypeTable.intern]
    rcases hindexed : IndexedM.intern kind s with ⟨f | ty, later⟩ <;>
      rcases hplain : TableM.intern kind s.table with ⟨f' | ty', table⟩ <;>
        rw [hindexed, hplain] at hfollows <;> rw [outcome, hindexed, outcome, hplain]
    · exact ⟨congrArg Except.error (Except.error.inj hfollows.answer), nofun⟩
    · cases hfollows.answer
    · cases hfollows.answer
    · obtain rfl : later.table = table := hfollows.table
      obtain ⟨hrefs, haligned⟩ := hnew kind List.mem_cons_self
      have hlater : Lawful later.table :=
        hlawful.intern (by simp [hrefs]) haligned (outcome_eq_ok_iff.2 hplain)
      exact ih hfollows.reflects hlater fun k hk => hnew k (List.mem_cons_of_mem _ hk)

/-- The primitive types are the same with an index. -/
theorem table_ofTarget (target : Target) :
    (·.table) <$> ofTarget target = TypeTable.ofTarget target ∧
      ∀ start, ofTarget target = .ok start → Reflects start := by
  unfold ofTarget TypeTable.ofTarget
  split
  · next hvalid =>
    refine foldlM_intern (reflects_bare target) (lawful_bare hvalid) ?_
    simp [Kind.primitives, Kind.refs, Kind.IsAligned]
  · refine ⟨rfl, ?_⟩
    rintro _ ⟨⟩

variable {start : IndexedTable} {kinds : List Kind} (hbuilt : Built start.table)
  (hstart : Reflects start) (h : Declarable start.table kinds)
include hbuilt hstart h

theorem reflects_afterFirst (n : Nat) :
    (start.afterFirst kinds n).table = start.table.afterFirst kinds n ∧
      Reflects (start.afterFirst kinds n) := by
  induction n with
  | zero => exact ⟨rfl, hstart⟩
  | succ n ih =>
    obtain ⟨htable, hreflects⟩ := ih
    cases hkind : kinds[n]? with
    | none =>
      rw [TypeTable.afterFirst_succ_of_none hkind, ← htable, afterFirst, List.take_add_one, hkind,
        Option.toList_none, List.append_nil, ← afterFirst]
      exact ⟨rfl, hreflects⟩
    | some kind =>
      have hlawful : Lawful (start.afterFirst kinds n).table :=
        htable ▸ (built_afterFirst hbuilt h n).lawful
      have hfollows := hreflects.add hlawful kind
      rw [TypeTable.afterFirst_succ hkind, ← htable, afterFirst, List.take_add_one, hkind,
        Option.toList_some, List.foldl_append, ← afterFirst]
      exact ⟨hfollows.table, hfollows.reflects⟩

/-- Declarations made one after the other are answered alike with an index, and leave the same
    table. -/
theorem follows_afterFirst (n : Nat) (kind : Kind) :
    Follows (start.afterFirst kinds n) (IndexedM.add kind (start.afterFirst kinds n))
      (TableM.add kind (start.table.afterFirst kinds n)) := by
  obtain ⟨htable, hreflects⟩ := reflects_afterFirst hbuilt hstart h n
  have hlawful : Lawful (start.afterFirst kinds n).table :=
    htable ▸ (built_afterFirst hbuilt h n).lawful
  exact htable ▸ hreflects.add hlawful kind

end IndexedTable

end HashEq
