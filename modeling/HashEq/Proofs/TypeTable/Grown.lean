import HashEq.Proofs.TypeTable.Built

/-!
# Grown tables

A table grows by types of any kinds that can be laid out. Pointers and the like may
name types that the table does not have, and may never have: only elements and
fields matter to how values lie in memory. Such a table is *coherent*: what it knows
about a type is still what the type's kind comes to in the table itself.

* `Grown.coherent`: every grown table is coherent;
* `Built.grown`: built tables are grown;
* `Coherent.of_intern`: an added type is laid out from the types that were there before;
* `Coherent.isPowerOfTwo_align`: alignments are powers of two.
-/

namespace HashEq

namespace TypeTable

/-- The tables that come about by adding types of any kinds, beginning with the primitive types. -/
inductive Grown : TypeTable → Prop
  | start {target : Target} {table : TypeTable} : ofTarget target = .ok table → Grown table
  | add {table table' : TypeTable} {kind : Kind} {ty : TypeId} : Grown table →
      table.add kind = .ok (ty, table') → Grown table'

/-- The laws of a table that do not concern the types which pointers and the like name. -/
structure Coherent (table : TypeTable) : Prop where
  valid : table.target.isValid = true
  laidOut : ∀ {ty : TypeId} {e : Entry}, table.get ty = .ok e → table.LaidOut e
  aligned : ∀ {ty : TypeId} {e : Entry}, table.get ty = .ok e → e.kind.IsAligned

variable {table later : TypeTable} {kind : Kind} {ty : TypeId} {e : Entry}

/-! ### Growing -/

theorem Built.grown (h : Built table) : Grown table := by
  induction h with
  | start h => exact .start h
  | add _ _ hadd ih => exact ih.add hadd

theorem Lawful.coherent (h : Lawful table) : Coherent table :=
  ⟨h.valid, h.laidOut, h.aligned⟩

/-- The elements and fields of a type that is laid out are types of the table. -/
theorem refs_of_layout {layout : Layout} (h : table.layout kind = .ok layout)
    (hkind : kind.elem?.isSome = true ∨ ∃ name members, kind = .struct name members) :
    ∀ ref ∈ kind.refs, table.Has ref := by
  rcases hkind with hkind | ⟨name, members, rfl⟩
  · obtain ⟨elem, hkind⟩ := Option.isSome_iff_exists.1 hkind
    cases kind with
    | array elem' len =>
      obtain ⟨e, he, _⟩ := bind_eq_ok_iff.1 h
      exact List.forall_mem_singleton.2 ⟨e, he⟩
    | _ => cases hkind
  · obtain ⟨stop, hplaced, _⟩ := layout_struct h
    rw [Kind.refs, ← map_toMember_of_placeMembers hplaced, List.map_map]
    exact List.forall_mem_map.2 (get_of_placeMembers hplaced)

/-- What is laid out stays so when the table grows, whatever else its kind names. -/
theorem LaidOut.grow (h : table.LaidOut e) (hlater : Extends later table) : later.LaidOut e := by
  by_cases hkind : e.kind.elem?.isSome = true ∨ ∃ name members, e.kind = .struct name members
  · exact h.extend hlater (refs_of_layout h.layout hkind)
  · -- All other kinds depend on the target alone.
    obtain ⟨helem, hstruct⟩ := not_or.1 hkind
    have hlayout := h.layout
    have hbase := h.base
    have hflags := h.flags
    cases hkind : e.kind with
    | array elem len => exact absurd (by rw [hkind]; rfl) helem
    | struct name members => exact absurd ⟨name, members, hkind⟩ hstruct
    | _ =>
      rw [hkind] at hlayout hbase hflags
      refine ⟨?_, ?_, ?_⟩
      · rw [hkind, ← hlayout]
        simp only [TypeTable.layout, hlater.target]
      · rw [hkind, hbase]
        rfl
      · rw [hkind, hflags]
        rfl

theorem Coherent.push (h : Coherent table) (haligned : kind.IsAligned)
    (hentry : table.entryOf kind = .ok e)
    (hparts : ∀ ty ∈ e.parts, ∃ e', table.get ty = .ok e') : Coherent (table.push e hparts) := by
  obtain ⟨rfl, hlaid, _⟩ := laidOut_of_entryOf hentry
  have hextends := extends_push table e hparts
  refine ⟨h.valid, fun he => ?_, fun he => ?_⟩
  · rcases get_of_get_push he with he | ⟨_, rfl⟩
    · exact (h.laidOut he).grow hextends
    · exact hlaid.grow hextends
  · rcases get_of_get_push he with he | ⟨_, rfl⟩
    · exact h.aligned he
    · exact haligned

/-- An interned kind is that of a type, which is laid out from types that were there before. -/
theorem Coherent.of_intern (h : Coherent table) (hintern : table.intern kind = .ok (ty, later)) :
    ∃ e, later.get ty = .ok e ∧ e.kind = kind ∧ table.LaidOut e := by
  rcases intern_cases hintern with ⟨rfl, hfound⟩ | ⟨_, e, hparts, hentry, hslot, rfl⟩
  · obtain ⟨e, he, hkind⟩ := get_of_find? hfound
    exact ⟨e, he, hkind, h.laidOut he⟩
  · obtain ⟨hkind, hlaid, _⟩ := laidOut_of_entryOf hentry
    refine ⟨e, ?_, hkind, hlaid⟩
    exact get_eq_ok_iff.2 ⟨table.size, TypeId.slot_of_ofSlot hslot, Array.getElem?_push_size⟩

theorem Coherent.intern (h : Coherent table) (haligned : kind.IsAligned)
    (hintern : table.intern kind = .ok (ty, later)) : Coherent later := by
  rcases intern_cases hintern with ⟨rfl, _⟩ | ⟨_, e, hparts, hentry, _, rfl⟩
  · exact h
  · exact h.push haligned hentry hparts

theorem Grown.coherent (h : Grown table) : Coherent table := by
  induction h with
  | start h => exact (lawful_of_ofTarget h).1.coherent
  | add _ hadd ih =>
    obtain ⟨kind', _, haligned, hintern⟩ := intern_of_add hadd
    exact ih.intern haligned hintern

/-! ### Alignments -/

theorem isPowerOfTwo_wideAlign {target : Target} (h : target.isValid = true) :
    isPowerOfTwo target.wideAlign.toNat = true := by
  simp only [Target.isValid, Bool.and_eq_true] at h
  unfold Target.wideAlign
  split
  · exact h.1.1.2
  · decide

theorem isPowerOfTwo_pointerSize {target : Target} (h : target.isValid = true) :
    isPowerOfTwo target.pointerSize.toNat = true := by
  simp only [Target.isValid, Bool.and_eq_true] at h
  exact h.1.1.1

/-- Of powers of two, and one, the largest is a power of two. -/
theorem isPowerOfTwo_foldl_max {aligns : List Word} {align : Word}
    (haligns : ∀ a ∈ aligns, isPowerOfTwo a.toNat = true) (halign : isPowerOfTwo align.toNat = true) :
    isPowerOfTwo (aligns.foldl max align).toNat = true := by
  induction aligns generalizing align with
  | nil => exact halign
  | cons a aligns ih =>
    refine ih (fun b hb => haligns b (List.mem_cons_of_mem _ hb)) ?_
    change isPowerOfTwo (if align ≤ a then a else align).toNat = true
    split
    · exact haligns a List.mem_cons_self
    · exact halign

/-- The alignment of every type is a power of two. -/
theorem Coherent.isPowerOfTwo_align {ty : TypeId} {e : Entry} (h : Coherent table)
    (hget : table.get ty = .ok e) : isPowerOfTwo e.align.toNat = true := by
  have hlayout := (h.laidOut hget).layout
  have hof : ∀ {size align : Word}, ⟨[], size, align⟩ = e.toLayout →
      isPowerOfTwo align.toNat = true → isPowerOfTwo e.align.toNat = true := by
    intro size align heq hpower
    rwa [← heq]
  cases hkind : e.kind with
  | bool | int8 | uint8 | int16 | uint16 | int32 | uint32 | float32 | complex64 =>
    rw [hkind] at hlayout
    exact hof (Except.ok.inj hlayout) (by decide)
  | int64 | uint64 | float64 | complex128 =>
    rw [hkind] at hlayout
    exact hof (Except.ok.inj hlayout) (isPowerOfTwo_wideAlign h.valid)
  | uintptr | unsafePointer | pointer _ | chan _ | map _ _ | func _ _ =>
    rw [hkind] at hlayout
    exact hof (Except.ok.inj hlayout) (isPowerOfTwo_pointerSize h.valid)
  | string | any | interface _ | slice _ =>
    rw [hkind] at hlayout
    obtain ⟨size, _, hlayout⟩ := bind_eq_ok_iff.1 hlayout
    exact hof (Except.ok.inj hlayout) (isPowerOfTwo_pointerSize h.valid)
  | opaqueMemory size align =>
    have haligned := h.aligned hget
    rw [hkind] at hlayout haligned
    exact hof (Except.ok.inj hlayout) haligned
  | array elem len =>
    have hlt := part_lt hget (Entry.elem_mem_parts hkind)
    rw [hkind] at hlayout
    obtain ⟨e', he', hlayout⟩ := bind_eq_ok_iff.1 hlayout
    exact hof (Except.ok.inj hlayout) (h.isPowerOfTwo_align he')
  | struct name members =>
    rw [hkind] at hlayout
    obtain ⟨stop, hplaced, _, halign⟩ := layout_struct hlayout
    rw [halign]
    -- The alignment of a struct is the greatest one of its fields.
    refine isPowerOfTwo_foldl_max (List.forall_mem_map.2 fun field hf => ?_) (by decide)
    obtain ⟨e', he'⟩ := get_of_placeMembers hplaced field hf
    have hlt := part_lt hget (Entry.field_mem_parts hf)
    rw [alignOf, entry_of_get he']
    exact h.isPowerOfTwo_align he'
termination_by ty.raw.toNat
decreasing_by
  all_goals exact UInt32.lt_iff_toNat_lt.1 hlt

theorem Coherent.alignOf_pos (h : Coherent table) (hty : table.Has ty) :
    0 < (table.alignOf ty).toNat := by
  rw [alignOf, entry_of_get hty.get_eq]
  exact pos_of_isPowerOfTwo (h.isPowerOfTwo_align hty.get_eq)

end TypeTable

end HashEq
