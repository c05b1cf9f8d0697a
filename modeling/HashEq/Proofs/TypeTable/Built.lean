import HashEq.Proofs.TypeTable.Extends

/-!
# Built tables

A *built* table starts with the primitive types, and every type that was added is
put together from types that the table had by then (`Built`). Such a table is
*lawful*: what it knows about a type is what the type's kind comes to in the
table itself, and no kind is there twice.

* `Built.lawful`: every built table is lawful;
* `Lawful.eq_of_kind_eq`: types of one kind are the same type;
* `Lawful.eq_of_ordinal_eq`: so are structs of one name and ordinal;
* `built_iff`: the built tables, by the kinds that are added.
-/

namespace HashEq

/-- The alignment of opaque memory is a power of two. -/
def Kind.IsAligned : Kind → Prop
  | opaqueMemory _ align => isPowerOfTwo align.toNat = true
  | _ => True

namespace TypeTable

/-- What a table knows about a type is what the type's kind comes to. -/
structure LaidOut (table : TypeTable) (e : Entry) : Prop where
  layout : table.layout e.kind = .ok e.toLayout
  base : e.base = table.baseOf e.kind e.toLayout
  flags : e.flags = table.flagsOf e.kind e.toLayout

/-- The number of the first `n` types that are structs declared under the name of `kind`. -/
def namesakes (table : TypeTable) (n : Nat) (kind : Kind) : Nat :=
  match kind.structName? with
  | some name => (table.entries.toList.take n).countP fun e => e.kind.structName? == some name
  | none => 0

/-- The laws of a table. -/
structure Lawful (table : TypeTable) : Prop where
  valid : table.target.isValid = true
  numbered : ∀ i < table.size, TypeId.numberOfSlot i < UInt32.size
  laidOut : ∀ {ty : TypeId} {e : Entry}, table.get ty = .ok e → table.LaidOut e
  aligned : ∀ {ty : TypeId} {e : Entry}, table.get ty = .ok e → e.kind.IsAligned
  refs : ∀ {ty : TypeId} {e : Entry}, table.get ty = .ok e →
    ∀ ref ∈ e.kind.refs, table.Has ref ∧ ref.raw < ty.raw
  slot_inj : ∀ {i j : Nat} {e e' : Entry}, table.entries[i]? = some e →
    table.entries[j]? = some e' → e.kind = e'.kind → i = j
  ordinal : ∀ {i : Nat} {e : Entry}, table.entries[i]? = some e →
    e.ordinal = table.namesakes i e.kind

/-- The tables that come about by adding types that are put together from types that are there
    already, beginning with the primitive types. -/
inductive Built : TypeTable → Prop
  | start {target : Target} {table : TypeTable} : ofTarget target = .ok table → Built table
  | add {table table' : TypeTable} {kind : Kind} {ty : TypeId} : Built table →
      (∀ ref ∈ kind.refs, table.Has ref) → table.add kind = .ok (ty, table') → Built table'

variable {table table' : TypeTable} {kind : Kind} {ty : TypeId} {e : Entry}

/-! ### Adding a type -/

theorem laidOut_of_entryOf (h : table.entryOf kind = .ok e) :
    e.kind = kind ∧ table.LaidOut e ∧ e.ordinal = table.ordinalOf kind := by
  obtain ⟨layout, hlayout, h⟩ := bind_eq_ok_iff.1 h
  cases h
  exact ⟨rfl, ⟨hlayout, rfl, rfl⟩, rfl⟩

/-- Interning a kind finds it, or puts it at the end. -/
theorem intern_cases (h : table.intern kind = .ok (ty, table')) :
    (table' = table ∧ table.find? kind = some ty) ∨
      (table.find? kind = none ∧ ∃ e hparts, table.entryOf kind = .ok e ∧
        TypeId.ofSlot table.size = .ok ty ∧ table' = table.push e hparts) := by
  have hrun := outcome_eq_ok_iff.1 h
  cases hfind : table.find? kind with
  | some found =>
    rw [TableM.intern_of_find?_eq_some hfind] at hrun
    cases hrun
    exact .inl ⟨rfl, rfl⟩
  | none =>
    rw [TableM.intern_of_find?_eq_none hfind] at hrun
    rcases TableM.append_cases hrun with ⟨_, e, hparts, heq, hentry, hslot, rfl⟩ | ⟨_, heq, _⟩
    · cases heq
      exact .inr ⟨rfl, e, hparts, hentry, hslot, rfl⟩
    · cases heq

theorem number_lt_of_ofSlot {i : Nat} (h : TypeId.ofSlot i = .ok ty) :
    TypeId.numberOfSlot i < UInt32.size := by
  unfold TypeId.ofSlot at h
  split at h
  · assumption
  · cases h

theorem ofSlot_of_lt {i : Nat} (h : TypeId.numberOfSlot i < UInt32.size) :
    ∃ ty, TypeId.ofSlot i = .ok ty :=
  ⟨_, if_pos h⟩

theorem eq_of_slot_eq {a b : TypeId} {i : Nat} (ha : a.slot = .ok i) (hb : b.slot = .ok i) :
    a = b := by
  cases a
  cases b
  rw [TypeId.mk.injEq, ← UInt32.toNat_inj]
  exact (TypeId.raw_of_slot ha).trans (TypeId.raw_of_slot hb).symm

/-- The types of a table with one more type are those that it had, and the new one. -/
theorem get_of_get_push {new : Entry} {hparts : ∀ ty ∈ new.parts, ∃ e', table.get ty = .ok e'}
    (h : (table.push new hparts).get ty = .ok e) :
    table.get ty = .ok e ∨ ty.slot = .ok table.size ∧ e = new := by
  obtain ⟨i, hi, hget⟩ := get_eq_ok_iff.1 h
  rw [push, Array.getElem?_push] at hget
  split at hget
  · next hsize =>
    subst hsize
    exact .inr ⟨hi, (Option.some.inj hget).symm⟩
  · exact .inl (get_eq_ok_iff.2 ⟨i, hi, hget⟩)

/-- A kind that is not found belongs to no type. -/
theorem kind_ne_of_find?_eq_none {i : Nat}
    (hnumbered : ∀ i < table.size, TypeId.numberOfSlot i < UInt32.size)
    (h : table.find? kind = none) (hget : table.entries[i]? = some e) : e.kind ≠ kind := by
  intro hkind
  cases hfind : table.entries.findIdx? (·.kind == kind) with
  | none =>
    have hne := Array.findIdx?_eq_none_iff.1 hfind e (Array.mem_of_getElem? hget)
    rw [hkind, beq_self_eq_true] at hne
    cases hne
  | some j =>
    obtain ⟨hlt, _⟩ := Array.findIdx?_eq_some_iff_getElem.1 hfind
    obtain ⟨ty, hty⟩ := ofSlot_of_lt (hnumbered j hlt)
    rw [find?, hfind, Option.bind_some, hty] at h
    cases h

theorem get_of_find? (h : table.find? kind = some ty) :
    ∃ e, table.get ty = .ok e ∧ e.kind = kind := by
  obtain ⟨i, hi, hslot⟩ := Option.bind_eq_some_iff.1 h
  obtain ⟨hlt, hp, _⟩ := Array.findIdx?_eq_some_iff_getElem.1 hi
  cases hof : TypeId.ofSlot i with
  | error f => rw [hof] at hslot; cases hslot
  | ok ty' =>
    rw [hof] at hslot
    cases hslot
    exact ⟨_, get_eq_ok_iff.2 ⟨i, TypeId.slot_of_ofSlot hof, Array.getElem?_eq_getElem hlt⟩,
      eq_of_beq hp⟩

/-! ### Built tables are lawful -/

theorem LaidOut.extend {later : TypeTable} (hlater : Extends later table) (h : table.LaidOut e)
    (hrefs : ∀ ref ∈ e.kind.refs, table.Has ref) : later.LaidOut e where
  layout := (hlater.layout_eq hrefs).trans h.layout
  base := h.base.trans (hlater.baseOf_eq hrefs h.layout).symm
  flags := h.flags.trans (hlater.flagsOf_eq hrefs h.layout).symm

theorem lawful_bare {target : Target} (h : target.isValid = true) : Lawful (bare target) := by
  have hempty : ∀ {i : Nat} {e : Entry}, (bare target).entries[i]? ≠ some e := by simp [bare]
  have hget : ∀ {ty : TypeId} {e : Entry}, (bare target).get ty ≠ .ok e := fun hget =>
    let ⟨_, _, he⟩ := get_eq_ok_iff.1 hget
    hempty he
  exact {
    valid := h
    numbered := fun i hi => absurd hi (Nat.not_lt_zero i)
    laidOut := fun he => absurd he hget
    aligned := fun he => absurd he hget
    refs := fun he => absurd he hget
    slot_inj := fun he => absurd he hempty
    ordinal := fun he => absurd he hempty }

theorem ordinalOf_eq (table : TypeTable) (kind : Kind) :
    table.ordinalOf kind = table.namesakes table.size kind := by
  have htake : table.entries.toList.take table.size = table.entries.toList :=
    List.take_of_length_le (Nat.le_of_eq Array.length_toList)
  rw [ordinalOf, namesakes, htake]
  cases kind.structName? with
  | none => rfl
  | some name => exact Array.countP_toList.symm

/-- The namesakes among the first types stay the same when a type is put at the end. -/
theorem namesakes_push {new : Entry} {hparts : ∀ ty ∈ new.parts, ∃ e', table.get ty = .ok e'}
    {n : Nat} (hn : n ≤ table.size) (kind : Kind) :
    (table.push new hparts).namesakes n kind = table.namesakes n kind := by
  have hlength : n ≤ table.entries.toList.length := by rwa [Array.length_toList]
  rw [namesakes, namesakes, push, Array.toList_push, List.take_append_of_le_length hlength]

/-- Putting a type of a new kind at the end keeps a table lawful. -/
theorem Lawful.push (h : Lawful table) (hrefs : ∀ ref ∈ kind.refs, table.Has ref)
    (haligned : kind.IsAligned) (hnone : table.find? kind = none)
    (hentry : table.entryOf kind = .ok e) (hslot : TypeId.ofSlot table.size = .ok ty)
    (hparts : ∀ ty ∈ e.parts, ∃ e', table.get ty = .ok e') : Lawful (table.push e hparts) := by
  obtain ⟨rfl, hlaid, hordinal⟩ := laidOut_of_entryOf hentry
  have hextends := extends_push table e hparts
  have hsize := size_push table e hparts
  have hnumber := number_lt_of_ofSlot hslot
  have hentries : ∀ {i : Nat} {e' : Entry}, (table.push e hparts).entries[i]? = some e' →
      (i < table.size ∧ table.entries[i]? = some e') ∨ (i = table.size ∧ e' = e) := by
    intro i e' he'
    rw [TypeTable.push, Array.getElem?_push] at he'
    split at he'
    · next hi => exact .inr ⟨hi, (Option.some.inj he').symm⟩
    · exact .inl ⟨(Array.getElem?_eq_some_iff.1 he').1, he'⟩
  refine ⟨h.valid, fun i hi => ?_, fun he => ?_, fun he => ?_, fun he ref href => ?_,
    fun {i j e₁ e₂} hi hj hkind => ?_, fun {i e'} hi => ?_⟩
  · -- numbered
    rcases Nat.lt_or_ge i table.size with hlt | hge
    · exact h.numbered i hlt
    · have hi' : i = table.size := by omega
      exact hi' ▸ hnumber
  · -- laidOut
    rcases get_of_get_push he with he | ⟨_, rfl⟩
    · exact (h.laidOut he).extend hextends fun ref href => (h.refs he ref href).1
    · exact hlaid.extend hextends hrefs
  · -- aligned
    rcases get_of_get_push he with he | ⟨_, rfl⟩
    · exact h.aligned he
    · exact haligned
  · -- refs
    rcases get_of_get_push he with he | ⟨hty, rfl⟩
    · exact ⟨hextends.has (h.refs he ref href).1, (h.refs he ref href).2⟩
    · refine ⟨hextends.has (hrefs ref href), ?_⟩
      obtain ⟨i, hi, hlt⟩ := has_iff.1 (hrefs ref href)
      rw [UInt32.lt_iff_toNat_lt, TypeId.raw_of_slot hi, TypeId.raw_of_slot hty]
      exact TypeId.numberOfSlot_lt hlt
  · -- slot_inj
    -- The new kind was not in the table, so an earlier entry and the new one differ in kind.
    rcases hentries hi with ⟨_, hi'⟩ | ⟨hi', rfl⟩ <;>
      rcases hentries hj with ⟨_, hj'⟩ | ⟨hj', rfl⟩
    · exact h.slot_inj hi' hj' hkind
    · exact absurd hkind (kind_ne_of_find?_eq_none h.numbered hnone hi')
    · exact absurd hkind.symm (kind_ne_of_find?_eq_none h.numbered hnone hj')
    · rw [hi', hj']
  · -- ordinal
    rcases hentries hi with ⟨hlt, hi'⟩ | ⟨rfl, rfl⟩
    · rw [namesakes_push (Nat.le_of_lt hlt)]
      exact h.ordinal hi'
    · rw [namesakes_push (Nat.le_refl _), hordinal, ordinalOf_eq]

theorem Lawful.intern (h : Lawful table) (hrefs : ∀ ref ∈ kind.refs, table.Has ref)
    (haligned : kind.IsAligned) (hintern : table.intern kind = .ok (ty, table')) :
    Lawful table' := by
  rcases intern_cases hintern with ⟨rfl, _⟩ | ⟨hnone, e, hparts, hentry, hslot, rfl⟩
  · exact h
  · exact h.push hrefs haligned hnone hentry hslot hparts

theorem max_one_of_ne_zero {align : Word} (h : align ≠ 0) : max align 1 = align := by
  have hpos : 1 ≤ align := UInt64.le_iff_toNat_le.2 (UInt64.lt_iff_toNat_lt.1 (UInt64.pos_iff_ne_zero.2 h))
  change (if align ≤ 1 then 1 else align) = align
  split
  · next hle => exact UInt64.le_antisymm hpos hle
  · rfl

theorem isAligned_max_iff {size align : Word} : (Kind.opaqueMemory size (max align 1)).IsAligned ↔
    align = 0 ∨ isPowerOfTwo align.toNat = true := by
  by_cases hzero : align = 0
  · rw [hzero]
    exact iff_of_true rfl (.inl rfl)
  · rw [Kind.IsAligned, max_one_of_ne_zero hzero]
    exact (or_iff_right hzero).symm

/-- Adding a type is interning its kind, but for the alignment zero. -/
theorem intern_of_add (h : table.add kind = .ok (ty, table')) :
    ∃ kind', kind'.refs = kind.refs ∧ kind'.IsAligned ∧ table.intern kind' = .ok (ty, table') := by
  cases kind with
  | opaqueMemory size align =>
    by_cases halign : align = 0 ∨ isPowerOfTwo align.toNat
    · rw [add, TableM.add, if_pos halign] at h
      exact ⟨.opaqueMemory size (max align 1), rfl, isAligned_max_iff.2 halign, h⟩
    · rw [add, TableM.add, if_neg halign] at h
      cases h
  | _ => exact ⟨_, rfl, trivial, h⟩

/-- The kinds of the types, in the order of their numbers. -/
def kinds (table : TypeTable) : List Kind :=
  table.entries.toList.map (·.kind)

theorem kinds_push {new : Entry} {hparts : ∀ ty ∈ new.parts, ∃ e', table.get ty = .ok e'} :
    (table.push new hparts).kinds = table.kinds ++ [new.kind] := by
  rw [kinds, push, Array.toList_push, List.map_append, kinds, List.map_singleton]

/-- A kind is new, and comes last, or the table is as it was. -/
theorem kinds_of_intern (h : table.intern kind = .ok (ty, table')) :
    table' = table ∧ kind ∈ table.kinds ∨ table'.kinds = table.kinds ++ [kind] := by
  rcases intern_cases h with ⟨rfl, hfound⟩ | ⟨_, e, hparts, hentry, _, rfl⟩
  · obtain ⟨e, he, rfl⟩ := get_of_find? hfound
    obtain ⟨i, _, hi⟩ := get_eq_ok_iff.1 he
    exact .inl ⟨rfl, List.mem_map_of_mem (Array.mem_toList_iff.2 (Array.mem_of_getElem? hi))⟩
  · rw [kinds_push, (laidOut_of_entryOf hentry).1]
    exact .inr rfl

/-- Interning kinds that name no types, and that are all different and new, puts them at the end
    in order. -/
theorem Lawful.intern_all {new : List Kind} (h : Lawful table)
    (hnew : ∀ kind ∈ new, kind.refs = [] ∧ kind.IsAligned) (hnodup : (table.kinds ++ new).Nodup)
    (hfold : new.foldlM (fun table kind => (·.2) <$> table.intern kind) table = .ok table') :
    Lawful table' ∧ table'.kinds = table.kinds ++ new := by
  induction new generalizing table with
  | nil =>
    cases hfold
    exact ⟨h, (List.append_nil _).symm⟩
  | cons kind new ih =>
    rw [List.foldlM_cons] at hfold
    obtain ⟨middle, hmiddle, hfold⟩ := bind_eq_ok_iff.1 hfold
    cases hintern : table.intern kind with
    | error f =>
      rw [hintern] at hmiddle
      cases hmiddle
    | ok answer =>
      obtain ⟨ty, table''⟩ := answer
      rw [hintern] at hmiddle
      cases hmiddle
      obtain ⟨hrefs, haligned⟩ := hnew kind List.mem_cons_self
      have hlawful := h.intern (by simp [hrefs]) haligned hintern
      rcases kinds_of_intern hintern with ⟨_, hmem⟩ | hkinds
      · -- A kind that is there already would be listed twice.
        exact absurd List.mem_cons_self ((List.nodup_append.1 hnodup).2.2 kind hmem kind · rfl)
      · rw [List.append_cons, ← hkinds] at hnodup ⊢
        exact ih hlawful (fun k hk => hnew k (List.mem_cons_of_mem _ hk)) hnodup hfold

theorem lawful_of_ofTarget {target : Target} (h : ofTarget target = .ok table) :
    Lawful table ∧ table.kinds = Kind.primitives := by
  unfold ofTarget at h
  split at h
  · next hvalid =>
    have hnew : ∀ kind ∈ Kind.primitives, kind.refs = [] ∧ kind.IsAligned := by
      simp [Kind.primitives, Kind.refs, Kind.IsAligned]
    have hnodup : ((bare target).kinds ++ Kind.primitives).Nodup := by
      rw [show (bare target).kinds = [] from rfl]
      decide
    exact (lawful_bare hvalid).intern_all hnew hnodup h
  · cases h

namespace Built

variable (h : Built table)
include h

theorem lawful : Lawful table := by
  induction h with
  | start h => exact (lawful_of_ofTarget h).1
  | add _ hrefs hadd ih =>
    obtain ⟨kind', hrefs', haligned, hintern⟩ := intern_of_add hadd
    exact ih.intern (hrefs'.symm ▸ hrefs) haligned hintern

/-- The primitive types come first. -/
theorem primitives_prefix : Kind.primitives <+: table.kinds := by
  induction h with
  | start h =>
    exact (lawful_of_ofTarget h).2 ▸ List.prefix_rfl
  | add _ hrefs hadd ih =>
    obtain ⟨kind', _, _, hintern⟩ := intern_of_add hadd
    rcases kinds_of_intern hintern with ⟨rfl, _⟩ | hkinds
    · exact ih
    · rw [hkinds]
      exact ih.trans (List.prefix_append _ _)

end Built

/-! ### Kinds tell types apart -/

namespace Lawful

variable {a b : TypeId} {ea eb : Entry}

theorem eq_of_kind_eq (h : Lawful table) (ha : table.get a = .ok ea) (hb : table.get b = .ok eb)
    (hkind : ea.kind = eb.kind) : a = b := by
  obtain ⟨i, hi, hea⟩ := get_eq_ok_iff.1 ha
  obtain ⟨j, hj, heb⟩ := get_eq_ok_iff.1 hb
  cases h.slot_inj hea heb hkind
  exact eq_of_slot_eq hi hj

/-- A struct counts among the namesakes of those after it. -/
theorem ordinal_lt (h : Lawful table) {i j : Nat} {name : String} (hij : i < j)
    (hi : table.entries[i]? = some ea) (hj : table.entries[j]? = some eb)
    (hname : ea.kind.structName? = some name) (hname' : eb.kind.structName? = some name) :
    ea.ordinal < eb.ordinal := by
  have hlist : table.entries.toList[i]? = some ea := by rwa [Array.getElem?_toList]
  rw [h.ordinal hi, h.ordinal hj, namesakes, namesakes, hname, hname']
  refine Nat.lt_of_lt_of_le ?_ ((List.take_sublist_take_left hij).countP_le)
  rw [List.take_add_one, hlist, List.countP_append, Option.toList_some, List.countP_singleton,
    if_pos (by rw [hname, beq_self_eq_true])]
  exact Nat.lt_succ_self _

/-- Structs of one name are told apart by their ordinals. -/
theorem eq_of_ordinal_eq (h : Lawful table) {name : String} (ha : table.get a = .ok ea)
    (hb : table.get b = .ok eb) (hname : ea.kind.structName? = some name)
    (hname' : eb.kind.structName? = some name) (hordinal : ea.ordinal = eb.ordinal) : a = b := by
  obtain ⟨i, hi, hea⟩ := get_eq_ok_iff.1 ha
  obtain ⟨j, hj, heb⟩ := get_eq_ok_iff.1 hb
  rcases Nat.lt_trichotomy i j with hij | rfl | hij
  · have hlt := h.ordinal_lt hij hea heb hname hname'
    omega
  · exact eq_of_slot_eq hi hj
  · have hlt := h.ordinal_lt hij heb hea hname' hname
    omega

end Lawful

namespace Built

variable (h : Built table)
include h

theorem kind_of_lt {i : Nat} (hi : i < TypeId.primitiveCount) :
    ∃ e, table.entries[i]? = some e ∧ Kind.primitives[i]? = some e.kind := by
  have hlt : i < Kind.primitives.length := hi
  have hkind := List.prefix_iff_getElem?.1 h.primitives_prefix i hlt
  rw [kinds, List.getElem?_map, Option.map_eq_some_iff] at hkind
  obtain ⟨e, he, hkind⟩ := hkind
  rw [Array.getElem?_toList] at he
  exact ⟨e, he, by rw [List.getElem?_eq_getElem hlt, hkind]⟩

/-- Exactly the first types have primitive kinds. -/
theorem isPrimitive_iff (hget : table.get ty = .ok e) :
    ty.isPrimitive = true ↔ e.kind ∈ Kind.primitives := by
  obtain ⟨i, hi, he⟩ := get_eq_ok_iff.1 hget
  have hraw := TypeId.raw_of_slot hi
  rw [TypeId.isPrimitive, decide_eq_true_iff, hraw]
  constructor
  · intro hlt
    have hlt' : i < TypeId.primitiveCount := by
      unfold TypeId.numberOfSlot at hlt
      grind
    obtain ⟨e', he', hkind⟩ := h.kind_of_lt hlt'
    rw [he] at he'
    cases he'
    exact List.mem_of_getElem? hkind
  · intro hmem
    obtain ⟨j, hj, hkind⟩ := List.getElem_of_mem hmem
    obtain ⟨e', he', hkind'⟩ := h.kind_of_lt hj
    rw [List.getElem?_eq_getElem hj, Option.some.injEq, hkind] at hkind'
    cases h.lawful.slot_inj he he' hkind'
    have hlt : i < TypeId.primitiveCount := hj
    rwa [TypeId.numberOfSlot, if_pos hlt]

/-- Two pointers fit into a word, as strings are two words. -/
theorem mul_pointerSize_isOk :
    ∃ size, Word.mul 2 table.target.pointerSize = .ok size := by
  obtain ⟨e, he, hkind⟩ := h.kind_of_lt (i := 14) (by decide)
  have hget : table.get ⟨14⟩ = .ok e := get_eq_ok_iff.2 ⟨14, rfl, he⟩
  have hlayout := (h.lawful.laidOut hget).layout
  rw [← Option.some.inj hkind] at hlayout
  obtain ⟨size, hsize, _⟩ := bind_eq_ok_iff.1 hlayout
  exact ⟨size, hsize⟩

end Built

/-! ### Tables by the kinds that are added -/

theorem Has.kind_mem (h : table.Has ty) : table.kind ty ∈ table.kinds := by
  obtain ⟨e, hget⟩ := h
  obtain ⟨i, _, he⟩ := get_eq_ok_iff.1 hget
  rw [kind_of_get hget, kinds]
  exact List.mem_map_of_mem (Array.mem_toList_iff.2 (Array.mem_of_getElem? he))

/-- Adds types of given kinds in order. No kind can name a type that is not there yet. -/
def addAll (table : TypeTable) (kinds : List Kind) : Except Fault TypeTable :=
  kinds.foldlM (fun table kind =>
    if ∀ ref ∈ kind.refs, table.Has ref then (·.2) <$> table.add kind else .error .assertion) table

theorem Built.addAll (h : Built table) {kinds : List Kind} (hadd : table.addAll kinds = .ok table') :
    Built table' := by
  induction kinds generalizing table with
  | nil =>
    cases hadd
    exact h
  | cons kind kinds ih =>
    rw [TypeTable.addAll, List.foldlM_cons] at hadd
    obtain ⟨middle, hmiddle, hadd⟩ := bind_eq_ok_iff.1 hadd
    split at hmiddle
    · next hrefs =>
      cases hnew : table.add kind with
      | error f =>
        rw [hnew] at hmiddle
        cases hmiddle
      | ok new =>
        rw [hnew] at hmiddle
        cases hmiddle
        exact ih (h.add hrefs hnew) hadd
    · cases hmiddle

/-- The built tables are those that come about by adding types of some kinds. -/
theorem built_iff : Built table ↔
    ∃ target start kinds, ofTarget target = .ok start ∧ start.addAll kinds = .ok table := by
  constructor
  · intro h
    induction h with
    | start h => exact ⟨_, _, [], h, rfl⟩
    | @add table table' kind ty _ hrefs hadd ih =>
      obtain ⟨target, start, kinds, hstart, htable⟩ := ih
      refine ⟨target, start, kinds ++ [kind], hstart, ?_⟩
      have hlast : table.addAll [kind] = .ok table' := by
        rw [addAll, List.foldlM_cons, if_pos hrefs, hadd]
        rfl
      rw [addAll] at htable hlast ⊢
      rw [List.foldlM_append, htable]
      exact hlast
  · rintro ⟨target, start, kinds, hstart, htable⟩
    exact (Built.start hstart).addAll htable

/-- The table for a target with types of given kinds. -/
def ofKinds (target : Target) (kinds : List Kind) : TypeTable :=
  (ofTarget target >>= (·.addAll kinds)).toOption.getD (bare target)

theorem built_ofKinds {target : Target} {kinds : List Kind}
    (h : (ofTarget target >>= (·.addAll kinds)).toBool = true) : Built (ofKinds target kinds) := by
  rw [ofKinds]
  cases htable : ofTarget target >>= (·.addAll kinds) with
  | error f =>
    rw [htable] at h
    cases h
  | ok table =>
    obtain ⟨start, hstart, htable⟩ := bind_eq_ok_iff.1 htable
    exact built_iff.2 ⟨target, start, kinds, hstart, htable⟩

end TypeTable

end HashEq
