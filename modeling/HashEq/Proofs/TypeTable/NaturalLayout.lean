import HashEq.Proofs.TypeTable.Grown
import HashEq.Proofs.TypeTable.Interning
import HashEq.Proofs.TypeTable.Placement
import Mathlib.Algebra.GroupWithZero.Nat
import Mathlib.Order.Bounds.Basic

/-!
# Natural layout

In numbers without bound, the fields of a struct have a *natural* layout: each is
placed at the least multiple of its alignment that is not below the end of the field
before it, the struct is aligned like its most strictly aligned field, and it ends at
the least multiple of its alignment that is not below the end of the last field.

A struct is laid out in exactly this way if words hold all the numbers of its natural
layout. If they do not, it is refused, and the table is as it was.

* `IsNatural.unique`, `Coherent.exists_isNatural`: fields have one natural layout;
* `Coherent.layout_of_isNatural`: layout computes it, or overflows;
* `Coherent.layout_struct_eq`: size and alignment follow from the fields once they are placed;
* `Placed.any_isPadded_iff`: a struct has padding if it is larger than its fields;
* `struct_laid_out_naturally`: all of this for the structs that are added to a table.
-/

namespace HashEq

/-- `n` is the least multiple of `align` that is not below `start`. -/
def IsNext (align start n : Nat) : Prop :=
  IsLeast {m | align ∣ m ∧ start ≤ m} n

theorem isNext_roundUpTo {align : Nat} (h : 0 < align) (start : Nat) :
    IsNext align start (roundUpTo align start) := by
  have hmax : max align 1 = align := Nat.max_eq_left h
  refine ⟨⟨?_, le_roundUpTo align start⟩, fun m hm => roundUpTo_le ?_ hm.2⟩
  · have hdvd := dvd_roundUpTo align start
    rwa [hmax] at hdvd
  · rw [hmax]
    exact hm.1

/-- The numbers of a layout, none of them bounded. -/
structure NaturalLayout where
  offsets : List Nat
  /-- Where the fields end, each in turn. -/
  ends : List Nat
  align : Nat
  size : Nat

/-- All the numbers of a layout. -/
def NaturalLayout.numbers (natural : NaturalLayout) : List Nat :=
  natural.offsets ++ natural.ends ++ [natural.align, natural.size]

namespace TypeTable

variable {table later : TypeTable} {types : List TypeId} {members : List Member}
  {start stop : Nat} {offsets ends : List Nat} {natural : NaturalLayout}

/-- Values of some types are placed one after the other from `start` on, each at the next multiple
    of its alignment, and the last one ends at `stop`. -/
inductive NaturalFrom (table : TypeTable) :
    Nat → List TypeId → List Nat → List Nat → Nat → Prop
  | nil {start : Nat} : NaturalFrom table start [] [] [] start
  | cons {start offset stop : Nat} {ty : TypeId} {types : List TypeId} {offsets ends : List Nat} :
      IsNext (table.alignOf ty).toNat start offset →
      NaturalFrom table (offset + (table.sizeOf ty).toNat) types offsets ends stop →
      NaturalFrom table start (ty :: types) (offset :: offsets)
        ((offset + (table.sizeOf ty).toNat) :: ends) stop

/-- The natural layout of a struct with fields of the given types. -/
structure IsNatural (table : TypeTable) (types : List TypeId) (natural : NaturalLayout) : Prop where
  /-- The first field is placed at zero. The struct ends where the last one does, or at the next
      multiple of its alignment. -/
  placed : ∃ stop, NaturalFrom table 0 types natural.offsets natural.ends stop ∧
    IsNext natural.align stop natural.size
  /-- The alignment is the largest one among the fields. -/
  align : types ≠ [] → IsGreatest {a | ∃ ty ∈ types, a = (table.alignOf ty).toNat} natural.align
  /-- Without fields it is one. -/
  align_nil : types = [] → natural.align = 1

/-! ### Natural layouts in unbounded numbers -/

theorem NaturalFrom.unique {offsets' ends' : List Nat} {stop' : Nat}
    (h : NaturalFrom table start types offsets ends stop)
    (h' : NaturalFrom table start types offsets' ends' stop') :
    offsets = offsets' ∧ ends = ends' ∧ stop = stop' := by
  induction h generalizing offsets' ends' with
  | nil =>
    cases h'
    exact ⟨rfl, rfl, rfl⟩
  | cons hnext _ ih =>
    cases h' with
    | cons hnext' hrest' =>
      cases hnext.unique hnext'
      obtain ⟨rfl, rfl, rfl⟩ := ih hrest'
      exact ⟨rfl, rfl, rfl⟩

/-- Fields have one natural layout. -/
theorem IsNatural.unique {natural' : NaturalLayout} (h : table.IsNatural types natural)
    (h' : table.IsNatural types natural') : natural = natural' := by
  obtain ⟨stop, hplaced, hsize⟩ := h.placed
  obtain ⟨stop', hplaced', hsize'⟩ := h'.placed
  obtain ⟨hoffsets, hends, rfl⟩ := hplaced.unique hplaced'
  have halign : natural.align = natural'.align := by
    by_cases hnil : types = []
    · rw [h.align_nil hnil, h'.align_nil hnil]
    · exact (h.align hnil).unique (h'.align hnil)
  rw [← halign] at hsize'
  have hsize := hsize.unique hsize'
  cases natural
  cases natural'
  simp_all

/-- The numbers of the fields grow up to the end of the last one. -/
theorem NaturalFrom.le (h : NaturalFrom table start types offsets ends stop) :
    start ≤ stop ∧ (∀ n ∈ offsets, n ≤ stop) ∧ ∀ n ∈ ends, n ≤ stop := by
  induction h with
  | nil => exact ⟨Nat.le_refl _, nofun, nofun⟩
  | @cons start offset stop ty types offsets ends hnext _ ih =>
    obtain ⟨hle, hoffsets, hends⟩ := ih
    have hstart : start ≤ offset := hnext.1.2
    have hoffset : offset ≤ stop := Nat.le_trans (Nat.le_add_right _ _) hle
    exact ⟨Nat.le_trans hstart hoffset, List.forall_mem_cons.2 ⟨hoffset, hoffsets⟩,
      List.forall_mem_cons.2 ⟨hle, hends⟩⟩

/-- Words hold all the numbers of a natural layout exactly if they hold the size. -/
theorem IsNatural.fits_iff (h : table.IsNatural types natural) :
    (∀ n ∈ natural.numbers, n < UInt64.size) ↔ natural.size < UInt64.size := by
  obtain ⟨stop, hplaced, hnext⟩ := h.placed
  obtain ⟨_, hoffsets, hends⟩ := hplaced.le
  have hstop : stop ≤ natural.size := hnext.1.2
  have halign : natural.align < UInt64.size := by
    by_cases hnil : types = []
    · rw [h.align_nil hnil]
      decide
    · obtain ⟨ty, _, heq⟩ := (h.align hnil).1
      rw [heq]
      exact (table.alignOf ty).toNat_lt_size
  refine ⟨fun hall => hall _ (by simp [NaturalLayout.numbers]), fun hsize n hn => ?_⟩
  simp only [NaturalLayout.numbers, List.mem_append, List.mem_cons, List.not_mem_nil,
    or_false] at hn
  rcases hn with (hn | hn) | rfl | rfl
  · have := hoffsets n hn
    omega
  · have := hends n hn
    omega
  · exact halign
  · exact hsize

/-! ### Layout in words -/

theorem exists_naturalFrom (htypes : ∀ ty ∈ types, 0 < (table.alignOf ty).toNat) (start : Nat) :
    ∃ offsets ends stop, NaturalFrom table start types offsets ends stop := by
  induction types generalizing start with
  | nil => exact ⟨[], [], start, .nil⟩
  | cons ty types ih =>
    obtain ⟨offsets, ends, stop, hrest⟩ := ih (fun ty hty => htypes ty (List.mem_cons_of_mem _ hty))
      (roundUpTo (table.alignOf ty).toNat start + (table.sizeOf ty).toNat)
    exact ⟨_, _, stop, .cons (isNext_roundUpTo (htypes ty List.mem_cons_self) start) hrest⟩

/-- No alignment is zero, so the one that counts for no fields changes nothing. -/
theorem foldl_max_one {aligns : List Word} (h : ∀ a ∈ aligns, 0 < a.toNat) :
    aligns.foldl max 1 = aligns.max?.getD 1 := by
  rw [List.foldl_max]
  cases hmax : aligns.max? with
  | none => rfl
  | some a =>
    have hpos := h a (List.max?_eq_some_iff.1 hmax).1
    rw [Option.getD_some, ← UInt64.toNat_inj, Word.toNat_max]
    exact Nat.max_eq_right hpos

theorem isGreatest_foldl_max_one {aligns : List Word} (h : ∀ a ∈ aligns, 0 < a.toNat)
    (hne : aligns ≠ []) :
    IsGreatest {n | ∃ a ∈ aligns, n = a.toNat} (aligns.foldl max 1).toNat := by
  obtain ⟨a, hmax⟩ := Option.ne_none_iff_exists'.1 (mt List.max?_eq_none_iff.1 hne)
  obtain ⟨hmem, hle⟩ := List.max?_eq_some_iff.1 hmax
  rw [foldl_max_one h, hmax]
  refine ⟨⟨a, hmem, rfl⟩, ?_⟩
  rintro _ ⟨b, hb, rfl⟩
  exact UInt64.le_iff_toNat_le.1 (hle b hb)

/-- The first of some fields is placed at its natural offset, and the others where it ends. -/
theorem Coherent.placeMembers_cons (h : Coherent table) {start : Word} {member : Member}
    (hmember : table.Has member.ty) {offset : Nat}
    (hnext : IsNext (table.alignOf member.ty).toNat start.toNat offset) :
    table.placeMembers start (member :: members) = (do
      let offset ← Word.checked offset
      let next ← Word.add offset (table.entry member.ty).size
      let placed ← table.placeMembers next members
      return ({ member with offset } :: placed.1, placed.2)) := by
  have hround : roundUpTo (table.entry member.ty).align.toNat start.toNat = offset :=
    (isNext_roundUpTo (h.alignOf_pos hmember) start.toNat).unique hnext
  rw [placeMembers, hmember.get_eq, ← hround]
  rfl

/-- Fields are placed in words as long as these hold where the last one ends. -/
theorem Coherent.placeMembers_of_naturalFrom (h : Coherent table) {start : Word}
    (hmembers : ∀ member ∈ members, table.Has member.ty)
    (hnatural : NaturalFrom table start.toNat (members.map (·.ty)) offsets ends stop) :
    (stop < UInt64.size → ∃ fields last, table.placeMembers start members = .ok (fields, last) ∧
      fields.map (·.offset.toNat) = offsets ∧ last.toNat = stop) ∧
    (UInt64.size ≤ stop → table.placeMembers start members = .error .overflow) := by
  induction members generalizing start offsets ends with
  | nil =>
    cases hnatural
    exact ⟨fun _ => ⟨[], start, rfl, rfl, rfl⟩,
      fun hle => absurd start.toNat_lt_size (Nat.not_lt.2 hle)⟩
  | cons member members ih =>
    have hmember := hmembers member List.mem_cons_self
    have hrest := fun m hm => hmembers m (List.mem_cons_of_mem _ hm)
    cases hnatural with
    | @cons _ offset _ _ _ offsets ends hnext hnatural =>
      have hstop : offset + (table.sizeOf member.ty).toNat ≤ stop := hnatural.le.1
      rw [h.placeMembers_cons hmember hnext]
      by_cases hoffset : offset < UInt64.size
      · have hword := UInt64.toNat_ofNat_of_lt' hoffset
        by_cases hend : offset + (table.sizeOf member.ty).toNat < UInt64.size
        · -- The field fits, and the others follow where it ends.
          have hnextWord := UInt64.toNat_ofNat_of_lt' hend
          have hadd : Word.add (UInt64.ofNat offset) (table.entry member.ty).size =
              .ok (UInt64.ofNat (offset + (table.sizeOf member.ty).toNat)) :=
            Word.checked_eq_ok_iff.2 (by rw [hnextWord, hword]; rfl)
          rw [← hnextWord] at hnatural
          obtain ⟨hfits, hoverflow⟩ := ih hrest hnatural
          rw [Word.checked_eq_ok_iff.2 hword]
          refine ⟨fun hlt => ?_, fun hle => ?_⟩
          · obtain ⟨fields, last, hfields, hoffsets, hlast⟩ := hfits hlt
            refine ⟨⟨member, UInt64.ofNat offset⟩ :: fields, last, ?_, ?_, hlast⟩
            · refine bind_eq_ok_iff.2 ⟨_, rfl, bind_eq_ok_iff.2 ⟨_, hadd, ?_⟩⟩
              exact bind_eq_ok_iff.2 ⟨_, hfields, rfl⟩
            · rw [List.map_cons, hoffsets, hword]
          · refine bind_eq_error_iff.2 (.inr ⟨_, rfl, bind_eq_error_iff.2 (.inr ⟨_, hadd, ?_⟩)⟩)
            exact bind_eq_error_iff.2 (.inl (hoverflow hle))
        · -- The offset of the field fits into a word, but its end does not.
          have hadd : Word.add (UInt64.ofNat offset) (table.entry member.ty).size =
              .error .overflow :=
            Word.checked_eq_error_iff.2 ⟨by rw [hword]; exact Nat.not_lt.1 hend, rfl⟩
          rw [Word.checked_eq_ok_iff.2 hword]
          refine ⟨fun hlt => absurd hlt (by omega), fun _ => ?_⟩
          exact bind_eq_error_iff.2 (.inr ⟨_, rfl, bind_eq_error_iff.2 (.inl hadd)⟩)
      · -- Not even its offset fits.
        rw [Word.checked_eq_error_iff.2 ⟨Nat.not_lt.1 hoffset, rfl⟩]
        exact ⟨fun hlt => absurd hlt (by omega), fun _ => rfl⟩

section Layout

variable (h : Coherent table) (hmembers : ∀ member ∈ members, table.Has member.ty)
include h hmembers

theorem Coherent.isGreatest_align (hne : members ≠ []) :
    IsGreatest {a | ∃ ty ∈ members.map (·.ty), a = (table.alignOf ty).toNat}
      (((members.map (·.ty)).map table.alignOf).foldl max 1).toNat := by
  have hpos : ∀ a ∈ (members.map (·.ty)).map table.alignOf, 0 < a.toNat :=
    List.forall_mem_map.2 (List.forall_mem_map.2 fun member hm => h.alignOf_pos (hmembers member hm))
  have hmax := isGreatest_foldl_max_one hpos (by simpa using hne)
  simpa only [List.mem_map, exists_exists_and_eq_and] using hmax

theorem Coherent.align_of_isNatural (hnatural : table.IsNatural (members.map (·.ty)) natural) :
    natural.align = (((members.map (·.ty)).map table.alignOf).foldl max 1).toNat := by
  by_cases hnil : members = []
  · rw [hnatural.align_nil (by rw [hnil]; rfl), hnil]
    rfl
  · exact (hnatural.align (mt List.map_eq_nil_iff.1 hnil)).unique (h.isGreatest_align hmembers hnil)

theorem Coherent.exists_isNatural :
    ∃ natural, table.IsNatural (members.map (·.ty)) natural := by
  have hpos : ∀ ty ∈ members.map (·.ty), 0 < (table.alignOf ty).toNat :=
    List.forall_mem_map.2 fun member hm => h.alignOf_pos (hmembers member hm)
  obtain ⟨offsets, ends, stop, hplaced⟩ := exists_naturalFrom hpos 0
  let align := (((members.map (·.ty)).map table.alignOf).foldl max 1).toNat
  have halign : 0 < align := by
    by_cases hnil : members = []
    · simp [align, hnil]
    · obtain ⟨ty, hty, heq⟩ := (h.isGreatest_align hmembers hnil).1
      exact Nat.lt_of_lt_of_eq (hpos ty hty) heq.symm
  refine ⟨⟨offsets, ends, align, roundUpTo align stop⟩, ⟨stop, hplaced, isNext_roundUpTo halign stop⟩,
    fun hne => h.isGreatest_align hmembers (fun hnil => hne (by rw [hnil]; rfl)), fun hnil => ?_⟩
  simp only [align, hnil]
  rfl

/-- A struct is laid out as words hold its natural layout, and not at all if they do not. -/
theorem Coherent.layout_of_isNatural (hnatural : table.IsNatural (members.map (·.ty)) natural)
    (name : Option String) :
    (natural.size < UInt64.size → ∃ layout, table.layout (.struct name members) = .ok layout ∧
      layout.fields.map (·.offset.toNat) = natural.offsets ∧ layout.size.toNat = natural.size ∧
      layout.align.toNat = natural.align) ∧
    (UInt64.size ≤ natural.size →
      table.layout (.struct name members) = .error .overflow) := by
  have halign := h.align_of_isNatural hmembers hnatural
  obtain ⟨stop, hplaced, hnext⟩ := hnatural.placed
  have hplace := h.placeMembers_of_naturalFrom hmembers (UInt64.toNat_zero.symm ▸ hplaced)
  obtain ⟨hfits, hoverflow⟩ := hplace
  by_cases hstop : stop < UInt64.size
  · obtain ⟨fields, last, hfields, hoffsets, rfl⟩ := hfits hstop
    -- The alignment is computed from the fields, which have the types of the members.
    have htypes : fields.map (fun field => table.alignOf field.ty) =
        (members.map (·.ty)).map table.alignOf := by
      rw [← map_toMember_of_placeMembers hfields, List.map_map, List.map_map]
      rfl
    have hround : roundUpTo natural.align last.toNat = natural.size := by
      refine (isNext_roundUpTo ?_ _).unique hnext
      by_cases hnil : members = []
      · rw [hnatural.align_nil (by rw [hnil]; rfl)]
        exact Nat.one_pos
      · obtain ⟨ty, hty, heq⟩ := (hnatural.align (mt List.map_eq_nil_iff.1 hnil)).1
        obtain ⟨member, hm, rfl⟩ := List.mem_map.1 hty
        exact Nat.lt_of_lt_of_eq (h.alignOf_pos (hmembers member hm)) heq.symm
    have hlayout : table.layout (.struct name members) = (do
        let size ← Word.checked natural.size
        return ⟨fields, size, ((members.map (·.ty)).map table.alignOf).foldl max 1⟩) := by
      rw [layout, hfields, ← hround, halign, ← htypes]
      rfl
    rw [hlayout]
    refine ⟨fun hsize => ?_, fun hsize => ?_⟩
    · have hword := UInt64.toNat_ofNat_of_lt' hsize
      rw [Word.checked_eq_ok_iff.2 hword]
      exact ⟨_, rfl, hoffsets, hword, halign.symm⟩
    · rw [Word.checked_eq_error_iff.2 ⟨hsize, rfl⟩]
      rfl
  · have hle : stop ≤ natural.size := hnext.1.2
    refine ⟨fun hsize => absurd hsize (by omega), fun _ => ?_⟩
    rw [layout, hoverflow (Nat.not_lt.1 hstop)]
    rfl

end Layout

/-! ### Layouts of placed fields -/

section Relayout

variable {fields : List Field}

/-- The layout of a struct with fields that are placed already. It is aligned like its most strictly
    aligned field, and ends at the next multiple of that from the last end of a field on. -/
def layoutOfFields (table : TypeTable) (fields : List Field) : Except Fault Layout := do
  let align := (fields.map fun field => table.alignOf field.ty).max?.getD 1
  let ends ← fields.mapM fun field => Word.add field.offset (table.sizeOf field.ty)
  return ⟨fields, ← Word.roundUp align (ends.max?.getD 0), align⟩

/-- The ends of fields in order fit into words, and the last end is the largest one. -/
theorem Placed.exists_ends {stop : Word} (h : Placed table start fields stop.toNat) :
    ∃ ends, (fields.mapM fun field => Word.add field.offset (table.sizeOf field.ty)) = .ok ends ∧
      (∀ n ∈ ends, n ≤ stop) ∧ (fields ≠ [] → stop ∈ ends) := by
  induction fields generalizing start with
  | nil => exact ⟨[], rfl, nofun, absurd rfl⟩
  | cons field fields ih =>
    obtain ⟨ends, hends, hle, hmem⟩ := ih h.2
    have hbound := h.2.le
    obtain ⟨last, hadd⟩ : ∃ last, Word.add field.offset (table.sizeOf field.ty) = .ok last :=
      ⟨_, Word.checked_eq_ok_iff.2
        (UInt64.toNat_ofNat_of_lt' (Nat.lt_of_le_of_lt hbound stop.toNat_lt_size))⟩
    have hlast := Word.toNat_of_add hadd
    refine ⟨last :: ends, ?_, List.forall_mem_cons.2 ⟨?_, hle⟩, fun _ => ?_⟩
    · rw [List.mapM_cons]
      exact bind_eq_ok_iff.2 ⟨_, hadd, bind_eq_ok_iff.2 ⟨_, hends, rfl⟩⟩
    · rwa [UInt64.le_iff_toNat_le, hlast]
    · by_cases hnil : fields = []
      · -- The last field ends where the struct does, before it is rounded up.
        subst hnil
        refine List.mem_cons.2 (.inl (UInt64.toNat_inj.1 ?_))
        rw [hlast]
        exact h.2.symm
      · exact List.mem_cons_of_mem _ (hmem hnil)

theorem Placed.max?_ends {stop : Word} (h : Placed table 0 fields stop.toNat) :
    ∃ ends, (fields.mapM fun field => Word.add field.offset (table.sizeOf field.ty)) = .ok ends ∧
      ends.max?.getD 0 = stop := by
  obtain ⟨ends, hends, hle, hmem⟩ := h.exists_ends
  refine ⟨ends, hends, ?_⟩
  by_cases hnil : fields = []
  · subst hnil
    cases hends
    exact UInt64.toNat_inj.1 h
  · rw [List.max?_eq_some_iff.2 ⟨hmem hnil, hle⟩]
    rfl

/-- A struct is laid out by placing its fields, and from these alone. -/
theorem Coherent.layout_struct_eq (h : Coherent table) (name : Option String)
    (members : List Member) : table.layout (.struct name members) = (do
      let placed ← table.placeMembers 0 members
      table.layoutOfFields placed.1) := by
  rw [layout]
  cases hplaced : table.placeMembers 0 members with
  | error f => rfl
  | ok placed =>
    obtain ⟨fields, stop⟩ := placed
    have hpos : ∀ a ∈ fields.map fun field => table.alignOf field.ty, 0 < a.toNat :=
      List.forall_mem_map.2 fun field hf => h.alignOf_pos (get_of_placeMembers hplaced field hf)
    obtain ⟨ends, hends, hstop⟩ := (placed_of_placeMembers hplaced).max?_ends
    change (do return ⟨fields, ← Word.roundUp _ stop, _⟩ : Except Fault Layout) =
      table.layoutOfFields fields
    rw [layoutOfFields, hends, foldl_max_one hpos]
    change _ = (do return ⟨fields, ← Word.roundUp _ (ends.max?.getD 0), _⟩ : Except Fault Layout)
    rw [hstop]

end Relayout

/-! ### Padding -/

section Padding

variable {fields : List Field} {first : Field} {size : Word}

/-- There are unused bytes between a field and what comes next exactly if the field ends before. -/
theorem isPadded_iff {field : Field} {next : Word}
    (hle : field.offset.toNat + (table.sizeOf field.ty).toNat ≤ next.toNat) :
    table.isPadded field next = true ↔
      field.offset.toNat + (table.sizeOf field.ty).toNat < next.toNat := by
  have hlast := next.toNat_lt
  rw [isPadded, bne_iff_ne, Ne, fieldEnd, ← UInt64.toNat_inj, UInt64.toNat_add,
    Nat.mod_eq_of_lt (by omega)]
  omega

/-- The bytes of some fields. -/
def bytesOf (table : TypeTable) (fields : List Field) : Nat :=
  (fields.map fun field => (table.sizeOf field.ty).toNat).sum

theorem Placed.bytesOf_le (h : Placed table start fields stop) :
    start + table.bytesOf fields ≤ stop := by
  induction fields generalizing start with
  | nil => exact Nat.le_of_eq h
  | cons field fields ih =>
    have hrest := ih h.2
    have hstart := h.1
    rw [bytesOf, List.map_cons, List.sum_cons]
    rw [bytesOf] at hrest
    omega

/-- Fields are padded exactly if the bytes from the first one to the end are more than theirs. -/
theorem Placed.any_isPadded_iff (h : Placed table start (first :: fields) stop)
    (hstop : stop ≤ size.toNat) :
    ((followed size (first :: fields)).any fun (field, next) => table.isPadded field next) = true ↔
      first.offset.toNat + table.bytesOf (first :: fields) < size.toNat := by
  induction fields generalizing start first with
  | nil =>
    have hend : first.offset.toNat + (table.sizeOf first.ty).toNat = stop := h.2
    rw [followed, List.any_cons, List.any_nil, Bool.or_false, isPadded_iff (by omega), bytesOf,
      List.map_singleton, List.sum_singleton]
  | cons next fields ih =>
    have hfirst := h.2.1
    have hrest := h.2.2.bytesOf_le
    rw [followed, List.any_cons, Bool.or_eq_true, ih h.2, isPadded_iff hfirst]
    simp only [bytesOf, List.map_cons, List.sum_cons] at hrest ⊢
    omega

end Padding

/-! ### Structs of a table -/

/-- A struct lies in memory as its natural layout says. -/
structure LiesNaturally (table : TypeTable) (natural : NaturalLayout) (e : Entry) : Prop where
  offsets : e.fields.map (·.offset.toNat) = natural.offsets
  size : e.size.toNat = natural.size
  align : e.align.toNat = natural.align
  /-- Fields are in order and do not overlap. -/
  inOrder : e.fields.Pairwise fun f g =>
    f.offset.toNat + (table.sizeOf f.ty).toNat ≤ g.offset.toNat
  /-- The struct is flagged as padded if it is larger than its fields. -/
  hasPadding : e.flags.hasPadding = true ↔ table.bytesOf e.fields < natural.size

/-- The first field is placed at zero. -/
theorem NaturalFrom.offset_eq_zero {offset : Nat}
    (h : NaturalFrom table 0 types (offset :: offsets) ends stop) : offset = 0 := by
  cases h with
  | cons hnext _ => exact hnext.unique ⟨⟨Nat.dvd_zero _, Nat.le_refl 0⟩, fun m _ => Nat.zero_le m⟩

theorem LaidOut.liesNaturally {name : Option String} {e : Entry} (h : table.LaidOut e)
    (hkind : e.kind = .struct name members) (hnatural : table.IsNatural types natural)
    (hoffsets : e.fields.map (·.offset.toNat) = natural.offsets)
    (hsize : e.size.toNat = natural.size) (halign : e.align.toNat = natural.align) :
    table.LiesNaturally natural e := by
  have hlayout := h.layout
  have hflags := h.flags
  rw [hkind] at hlayout hflags
  obtain ⟨stop, hplace, hround, _⟩ := layout_struct hlayout
  have hplaced := placed_of_placeMembers hplace
  refine ⟨hoffsets, hsize, halign, hplaced.pairwise, ?_⟩
  rw [hflags, ← hsize]
  change ((followed e.size e.fields).any fun (field, next) => table.isPadded field next) = true ↔ _
  have hstop : stop.toNat ≤ e.size.toNat := by
    rw [Word.toNat_of_roundUp hround]
    exact le_roundUpTo _ _
  cases hfields : e.fields with
  | nil =>
    -- A struct without fields has size zero.
    rw [hfields] at hplaced
    rw [Word.toNat_of_roundUp hround, ← hplaced]
    simp [followed, roundUpTo_of_dvd, bytesOf]
  | cons first rest =>
    obtain ⟨_, hfrom, _⟩ := hnatural.placed
    rw [← hoffsets, hfields, List.map_cons] at hfrom
    rw [hfields] at hplaced
    rw [hplaced.any_isPadded_iff hstop, hfrom.offset_eq_zero, Nat.zero_add]

/-- There is a number for one more type, if there are not too many. -/
theorem numberOfSlot_lt_of_size (h : table.size < 2 ^ 31) :
    TypeId.numberOfSlot table.size < UInt32.size := by
  unfold TypeId.numberOfSlot TypeId.firstAdded TypeId.primitiveCount UInt32.size
  split <;> omega

/-- A struct whose fields are types of a table is added with its natural layout. If words do not
    hold all the numbers of that, it is refused and the table stays as it is. -/
theorem struct_laid_out_naturally (h : Grown table) (hcount : table.size < 2 ^ 31)
    (name : Option String) (hmembers : ∀ member ∈ members, table.Has member.ty) :
    ∃ natural, table.IsNatural (members.map (·.ty)) natural ∧
      (∀ natural', table.IsNatural (members.map (·.ty)) natural' → natural' = natural) ∧
      ((∀ n ∈ natural.numbers, n < UInt64.size) →
        ∃ ty later e, table.add (.struct name members) = .ok (ty, later) ∧
          later.get ty = .ok e ∧ e.kind = .struct name members ∧
          e.fields.map (·.toMember) = members ∧ table.LiesNaturally natural e) ∧
      ((∃ n ∈ natural.numbers, UInt64.size ≤ n) →
        table.add (.struct name members) = .error .overflow ∧
          table.declare (.struct name members) = table) := by
  have hcoherent := h.coherent
  have hnumber := numberOfSlot_lt_of_size hcount
  obtain ⟨natural, hnatural⟩ := hcoherent.exists_isNatural hmembers
  obtain ⟨hfits, hoverflow⟩ := hcoherent.layout_of_isNatural hmembers hnatural name
  refine ⟨natural, hnatural, fun _ hnatural' => hnatural'.unique hnatural, fun hall => ?_,
    fun hsome => ?_⟩
  · obtain ⟨layout, hlayout, hoffsets, hsize, halign⟩ := hfits (hnatural.fits_iff.1 hall)
    cases hadd : table.add (.struct name members) with
    | error f =>
      have herror := Built.layout_of_intern_eq_error hnumber hadd
      rw [hlayout] at herror
      cases herror
    | ok answer =>
      obtain ⟨ty, later⟩ := answer
      obtain ⟨e, hget, hkind, hlaid⟩ := hcoherent.of_intern hadd
      have hsame : layout = e.toLayout :=
        Except.ok.inj (hlayout.symm.trans (hkind ▸ hlaid.layout))
      subst hsame
      exact ⟨ty, later, e, rfl, hget, hkind, map_toMember_of_layout hlayout,
        hlaid.liesNaturally hkind hnatural hoffsets hsize halign⟩
  · have hlarge : UInt64.size ≤ natural.size := by
      obtain ⟨n, hn, hle⟩ := hsome
      exact Nat.not_lt.1 fun hlt => absurd (hnatural.fits_iff.2 hlt n hn) (Nat.not_lt.2 hle)
    have hrefused : table.add (.struct name members) = .error .overflow := by
      cases hadd : table.add (.struct name members) with
      | error f =>
        have herror := Built.layout_of_intern_eq_error hnumber hadd
        rw [Except.error.inj (herror.symm.trans (hoverflow hlarge))]
      | ok answer =>
        -- A struct that is found has been laid out.
        obtain ⟨ty, later⟩ := answer
        obtain ⟨e, _, hkind, hlaid⟩ := hcoherent.of_intern hadd
        have hlayout := hlaid.layout
        rw [hkind, hoverflow hlarge] at hlayout
        cases hlayout
    exact ⟨hrefused, declare_of_add_eq_error hrefused⟩

/-- Five bytes of opaque memory aligned to two, and an array of no numbers. -/
def oddTable : TypeTable :=
  ofKinds .amd64 [.opaqueMemory 5 2, .array ⟨4⟩ 0]

def oddMembers : List Member :=
  [⟨some "flag", ⟨0⟩⟩, ⟨none, ⟨32⟩⟩, ⟨some "numbers", ⟨33⟩⟩]

/-- A struct of eight bytes, of which its fields take up six. -/
theorem struct_laid_out_naturally_odd :
    Grown oddTable ∧ oddTable.size < 2 ^ 31 ∧ (∀ member ∈ oddMembers, oddTable.Has member.ty) ∧
    ∃ natural ty later e, oddTable.IsNatural (oddMembers.map (·.ty)) natural ∧
      oddTable.add (.struct none oddMembers) = .ok (ty, later) ∧ later.get ty = .ok e ∧
      oddTable.LiesNaturally natural e ∧ natural.offsets = [0, 2, 8] ∧ natural.size = 8 ∧
      e.flags.hasPadding = true := by
  have hgrown : Grown oddTable := (built_ofKinds (by decide +kernel)).grown
  have hcount : oddTable.size < 2 ^ 31 := by
    have hsize : oddTable.size = 19 := by decide +kernel
    rw [hsize]
    decide
  have hmembers : ∀ member ∈ oddMembers, oddTable.Has member.ty := by decide +kernel
  have hadded : (oddTable.add (.struct none oddMembers)).toOption.map (fun (ty, later) =>
      ((later.fields ty).map (·.offset.toNat), (later.sizeOf ty).toNat,
        (later.flags ty).hasPadding)) = some ([0, 2, 8], 8, true) := by decide +kernel
  obtain ⟨natural, hnatural, _, hfits, hoverflow⟩ :=
    struct_laid_out_naturally hgrown hcount none hmembers
  by_cases hall : ∀ n ∈ natural.numbers, n < UInt64.size
  · obtain ⟨ty, later, e, hadd, hget, _, _, hlies⟩ := hfits hall
    simp only [hadd, Except.toOption, Option.map_some, fields, sizeOf, flags, entry_of_get hget,
      Option.some.injEq, Prod.mk.injEq] at hadded
    obtain ⟨hoffsets, hsize, hpadding⟩ := hadded
    exact ⟨hgrown, hcount, hmembers, natural, ty, later, e, hnatural, hadd, hget, hlies,
      hlies.offsets.symm.trans hoffsets, hlies.size.symm.trans hsize, hpadding⟩
  · rw [(hoverflow (by simpa using hall)).1] at hadded
    cases hadded

end TypeTable

end HashEq
