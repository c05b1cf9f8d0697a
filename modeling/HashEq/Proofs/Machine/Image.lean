import HashEq.Proofs.Machine.Leaves

/-!
# Images of values

An *image* of a type is a range of bytes that can be looked at as a value of the
type: it can be read, its strings can be read, its interfaces name types, and the
values in its interfaces are images in turn. Numbers can have any bits.

Interfaces nest to some depth. As there are less than `2 ^ 96` pairs of a type and an
address, and no image lies within itself, they nest no deeper than that.

* `Image`: the images of a type;
* `ImageWithin`: those in which interfaces nest no deeper than a given number;
* `Image.within`: images nest no deeper than there are types and addresses;
* `imageWithin_iff`: images can be told by a check.
-/

namespace HashEq

open TypeTable

/-- A range of bytes can be read as a value of a type, but for the values in its interfaces. -/
structure Readable (table : TypeTable) (arena : Arena) (ty : TypeId) (p : Word) : Prop where
  bounds : arena.inBounds p (table.sizeOf ty).toNat = true
  strings : ∀ {offset data len : Word}, (offset, Leaf.string) ∈ table.leaves ty →
    Primitives.loadPair table arena (p + offset) = .ok (data, len) →
    arena.inBounds data len.toNat = true
  interfaces : ∀ {offset word data : Word}, (offset, Leaf.interface) ∈ table.leaves ty →
    Primitives.loadPair table arena (p + offset) = .ok (word, data) → word ≠ 0 →
    ∃ dynamic, typeOfWord word = .ok dynamic ∧ table.Has dynamic

/-- An interface in the value of type `ty` at `p` holds the value at `data` of the type `dynamic`,
    which has equality. -/
def Holds (table : TypeTable) (arena : Arena) (ty : TypeId) (p : Word) (dynamic : TypeId)
    (data : Word) : Prop :=
  ∃ offset word, (offset, Leaf.interface) ∈ table.leaves ty ∧
    Primitives.loadPair table arena (p + offset) = .ok (word, data) ∧ word ≠ 0 ∧
    typeOfWord word = .ok dynamic ∧ table.base dynamic ≠ .noEquality

/-- The images of a type: what can be read as a value of it, the values in interfaces included. -/
inductive Image (table : TypeTable) (arena : Arena) : TypeId → Word → Prop
  | intro {ty : TypeId} {p : Word} : Readable table arena ty p →
      (∀ dynamic data, Holds table arena ty p dynamic data → Image table arena dynamic data) →
      Image table arena ty p

/-- The images of a type in which interfaces nest less than `n` deep. -/
def ImageWithin (table : TypeTable) (arena : Arena) : Nat → TypeId → Word → Prop
  | 0, _, _ => False
  | n + 1, ty, p => Readable table arena ty p ∧
      ∀ dynamic data, Holds table arena ty p dynamic data → ImageWithin table arena n dynamic data

variable {table : TypeTable} {arena : Arena} {ty : TypeId} {e : Entry} {p q : Word} {n : Nat}

theorem ImageWithin.readable (h : ImageWithin table arena n ty p) : Readable table arena ty p := by
  cases n with
  | zero => exact h.elim
  | succ n => exact h.1

/-! ### How deep interfaces nest -/

/-- The number of a type and an address. -/
def placeNumber (place : TypeId × Word) : Nat :=
  place.1.raw.toNat * 2 ^ 64 + place.2.toNat

theorem placeNumber_lt (place : TypeId × Word) : placeNumber place < 2 ^ 96 := by
  have hty := place.1.raw.toNat_lt
  have hp := place.2.toNat_lt
  unfold placeNumber
  omega

theorem placeNumber_inj {a b : TypeId × Word} (h : placeNumber a = placeNumber b) : a = b := by
  have hpa := a.2.toNat_lt
  have hpb := b.2.toNat_lt
  unfold placeNumber at h
  have hty : a.1.raw = b.1.raw := UInt32.toNat_inj.1 (by omega)
  have hp : a.2 = b.2 := UInt64.toNat_inj.1 (by omega)
  obtain ⟨⟨_⟩, _⟩ := a
  obtain ⟨⟨_⟩, _⟩ := b
  cases hty
  cases hp
  rfl

/-- The value at the first place is held by an interface in the one at the second. -/
def Inside (table : TypeTable) (arena : Arena) (inner outer : TypeId × Word) : Prop :=
  Holds table arena outer.1 outer.2 inner.1 inner.2

theorem Image.acc (h : Image table arena ty p) : Acc (Inside table arena) (ty, p) := by
  induction h with
  | intro _ _ ih => exact .intro _ fun inner hinner => ih inner.1 inner.2 hinner

theorem not_self_of_acc {α : Type} {r : α → α → Prop} {a : α} (h : Acc r a) : ¬r a a := by
  induction h with
  | intro a _ ih => exact fun ha => ih a ha ha

/-- An image nests no deeper than there are places of images within it, which are all different. -/
theorem Image.within_length (h : Image table arena ty p) {places : List Nat}
    (hself : placeNumber (ty, p) ∈ places)
    (hinner : ∀ inner, Relation.TransGen (Inside table arena) inner (ty, p) →
      placeNumber inner ∈ places) : ImageWithin table arena places.length ty p := by
  induction h generalizing places with
  | @intro ty p hreadable himages ih =>
    have hirreflexive := not_self_of_acc (Image.intro hreadable himages).acc.transGen
    obtain ⟨k, hk⟩ := Nat.exists_eq_succ_of_ne_zero (Nat.ne_of_gt (List.length_pos_of_mem hself))
    have hlength := List.length_erase_of_mem hself
    rw [hk, Nat.succ_sub_one] at hlength
    rw [hk]
    -- What lies within an image in this one is not this one, so it is among the other places.
    have hother : ∀ inner, Relation.TransGen (Inside table arena) inner (ty, p) →
        placeNumber inner ∈ places.erase (placeNumber (ty, p)) := by
      intro inner hin
      refine (List.mem_erase_of_ne fun heq => ?_).2 (hinner inner hin)
      rw [placeNumber_inj heq] at hin
      exact hirreflexive hin
    refine ⟨hreadable, fun dynamic data hholds => ?_⟩
    have hsingle : Relation.TransGen (Inside table arena) (dynamic, data) (ty, p) :=
      .single hholds
    rw [← hlength]
    exact ih dynamic data hholds (hother _ hsingle) fun inner hin => hother inner (hin.trans hsingle)

/-- More interfaces nest in no image than there are types and addresses. -/
theorem Image.within (h : Image table arena ty p) (hlimit : ∀ place, placeNumber place < n) :
    ImageWithin table arena n ty p := by
  have hwithin : ImageWithin table arena (List.range n).length ty p :=
    h.within_length (List.mem_range.2 (hlimit _)) fun _ _ => List.mem_range.2 (hlimit _)
  rwa [List.length_range] at hwithin

theorem Image.of_within (h : ImageWithin table arena n ty p) : Image table arena ty p := by
  induction n generalizing ty p with
  | zero => exact h.elim
  | succ n ih => exact .intro h.1 fun dynamic data hholds => ih (h.2 dynamic data hholds)

/-! ### Checking images -/

/-- Checks that a string can be read and that an interface names a type. The value in an interface
    is checked by `inner`. -/
def Leaf.check (table : TypeTable) (arena : Arena) (inner : TypeId → Word → Bool) (p : Word) :
    Leaf → Bool
  | string =>
    match Primitives.loadPair table arena p with
    | .ok (data, len) => arena.inBounds data len.toNat
    | .error _ => true
  | interface =>
    match Primitives.loadPair table arena p with
    | .ok (word, data) =>
      word == 0 || match typeOfWord word with
        | .ok dynamic =>
          decide (table.Has dynamic) && (table.base dynamic == .noEquality || inner dynamic data)
        | .error _ => false
    | .error _ => true
  | _ => true

/-- Checks that there is an image in which interfaces nest less than `n` deep. -/
def isImage (table : TypeTable) (arena : Arena) : Nat → TypeId → Word → Bool
  | 0, _, _ => false
  | n + 1, ty, p =>
    arena.inBounds p (table.sizeOf ty).toNat &&
      (table.leaves ty).all fun leaf => leaf.2.check table arena (isImage table arena n) (p + leaf.1)

theorem Leaf.check_string {inner : TypeId → Word → Bool} :
    Leaf.string.check table arena inner p = true ↔
      ∀ data len, Primitives.loadPair table arena p = .ok (data, len) →
        arena.inBounds data len.toNat = true := by
  rw [check]
  cases Primitives.loadPair table arena p with
  | error _ => exact ⟨fun _ => nofun, fun _ => rfl⟩
  | ok pair =>
    refine ⟨fun h data len hload => ?_, fun h => h pair.1 pair.2 rfl⟩
    cases hload
    exact h

theorem Leaf.check_interface {inner : TypeId → Word → Bool} :
    Leaf.interface.check table arena inner p = true ↔
      ∀ word data, Primitives.loadPair table arena p = .ok (word, data) → word ≠ 0 →
        ∃ dynamic, typeOfWord word = .ok dynamic ∧ table.Has dynamic ∧
          (table.base dynamic ≠ .noEquality → inner dynamic data = true) := by
  rw [check]
  cases Primitives.loadPair table arena p with
  | error _ => exact ⟨fun _ => nofun, fun _ => rfl⟩
  | ok pair =>
    obtain ⟨word, data⟩ := pair
    simp only [Except.ok.injEq, Prod.mk.injEq, Bool.or_eq_true, beq_iff_eq]
    constructor
    · rintro (hzero | hchecked) word data ⟨rfl, rfl⟩ hword
      · exact absurd hzero hword
      · cases htold : typeOfWord word with
        | error _ =>
          rw [htold] at hchecked
          cases hchecked
        | ok dynamic =>
          simp only [htold, Bool.and_eq_true, decide_eq_true_iff, Bool.or_eq_true, beq_iff_eq]
            at hchecked
          exact ⟨dynamic, rfl, hchecked.1, hchecked.2.resolve_left⟩
    · intro hall
      refine Decidable.or_iff_not_imp_left.2 fun hword => ?_
      obtain ⟨dynamic, htold, hhas, hinner⟩ := hall word data ⟨rfl, rfl⟩ hword
      simp only [htold, Bool.and_eq_true, decide_eq_true_iff, Bool.or_eq_true, beq_iff_eq]
      exact ⟨hhas, Decidable.or_iff_not_imp_left.2 hinner⟩

/-- The check finds exactly the images. -/
theorem imageWithin_iff : ImageWithin table arena n ty p ↔ isImage table arena n ty p = true := by
  induction n generalizing ty p with
  | zero => exact ⟨False.elim, nofun⟩
  | succ n ih =>
    rw [isImage, Bool.and_eq_true, List.all_eq_true]
    constructor
    · rintro ⟨hreadable, himages⟩
      refine ⟨hreadable.bounds, fun (offset, leaf) hmem => ?_⟩
      cases leaf with
      | string => exact Leaf.check_string.2 fun data len => hreadable.strings hmem
      | interface =>
        refine Leaf.check_interface.2 fun word data hload hword => ?_
        obtain ⟨dynamic, htold, hhas⟩ := hreadable.interfaces hmem hload hword
        exact ⟨dynamic, htold, hhas, fun hne =>
          ih.1 (himages dynamic data ⟨offset, word, hmem, hload, hword, htold, hne⟩)⟩
      | _ => rfl
    · rintro ⟨hbounds, hchecked⟩
      refine ⟨⟨hbounds, fun hmem => Leaf.check_string.1 (hchecked _ hmem) _ _, ?_⟩, ?_⟩
      · intro offset word data hmem hload hword
        obtain ⟨dynamic, htold, hhas, _⟩ :=
          Leaf.check_interface.1 (hchecked _ hmem) word data hload hword
        exact ⟨dynamic, htold, hhas⟩
      · rintro dynamic data ⟨offset, word, hmem, hload, hword, htold, hne⟩
        obtain ⟨dynamic', htold', _, hinner⟩ :=
          Leaf.check_interface.1 (hchecked _ hmem) word data hload hword
        rw [htold] at htold'
        cases htold'
        exact ih.2 (hinner hne)

instance : Decidable (ImageWithin table arena n ty p) :=
  decidable_of_iff' _ imageWithin_iff

/-- Two pairs of pairs, which differ in the blank byte only, and the bytes of their strings, which
    are also the number in their interfaces. -/
def pairArena : Arena where
  bytes :=
    let pair : List Word := [4240, 2, 5, 4240]
    let words := pair ++ [0] ++ pair ++ pair ++ [1] ++ pair ++ [26984]
    (words.flatMap (Arena.bytesOfWord 8)).toArray
  addressable := by decide +kernel

theorem image_pairArena : Image pairTable pairArena ⟨33⟩ 4096 ∧ Image pairTable pairArena ⟨33⟩ 4168 :=
  have hwithin : ImageWithin pairTable pairArena 2 ⟨33⟩ 4096 ∧
      ImageWithin pairTable pairArena 2 ⟨33⟩ 4168 := by decide +kernel
  ⟨.of_within hwithin.1, .of_within hwithin.2⟩

/-! ### Parts of images -/

section Parts

variable {part : TypeId} {offset : Word}

/-- What can be read as a value can be read part by part. -/
theorem Readable.restrict (h : Readable table arena ty p)
    (hbounds : arena.inBounds (p + offset) (table.sizeOf part).toNat = true)
    (hleaves : ∀ leaf ∈ table.leaves part, (offset + leaf.1, leaf.2) ∈ table.leaves ty) :
    Readable table arena part (p + offset) where
  bounds := hbounds
  strings := by
    intro inner data len hmem hload
    rw [UInt64.add_assoc] at hload
    exact h.strings (hleaves _ hmem) hload
  interfaces := by
    intro inner word data hmem hload hword
    rw [UInt64.add_assoc] at hload
    exact h.interfaces (hleaves _ hmem) hload hword

/-- What an interface in a part holds is held by an interface in the whole. -/
theorem Holds.of_part (hleaves : ∀ leaf ∈ table.leaves part, (offset + leaf.1, leaf.2) ∈ table.leaves ty)
    {dynamic : TypeId} {data : Word} (h : Holds table arena part (p + offset) dynamic data) :
    Holds table arena ty p dynamic data := by
  obtain ⟨inner, word, hmem, hload, hrest⟩ := h
  rw [UInt64.add_assoc] at hload
  exact ⟨offset + inner, word, hleaves _ hmem, hload, hrest⟩

variable (h : Lawful table) (hget : table.get ty = .ok e) (hbase : e.base ≠ .memory)
include h hget hbase

theorem mem_leaves_of_field {field : Field} (hf : field ∈ e.fields) (hblank : field.isBlank = false) :
    ∀ leaf ∈ table.leaves field.ty, (field.offset + leaf.1, leaf.2) ∈ table.leaves ty := by
  intro leaf hleaf
  obtain ⟨name, members, hkind⟩ := h.isStruct_of_mem hget hf
  rw [leaves_struct hget hbase hkind]
  refine List.mem_flatMap.2 ⟨field, hf, ?_⟩
  rw [hblank]
  exact List.mem_map.2 ⟨leaf, hleaf, rfl⟩

omit h in
theorem mem_leaves_of_elem {elem : TypeId} {len : Word} (hkind : e.kind = .array elem len) {i : Nat}
    (hi : i < len.toNat) : ∀ leaf ∈ table.leaves elem,
      (UInt64.ofNat i * table.sizeOf elem + leaf.1, leaf.2) ∈ table.leaves ty := by
  intro leaf hleaf
  rw [leaves_array hget hbase hkind]
  exact List.mem_flatMap.2 ⟨i, by simpa using hi, List.mem_map.2 ⟨leaf, hleaf, rfl⟩⟩

theorem Readable.field (hp : Readable table arena ty p) {field : Field} (hf : field ∈ e.fields)
    (hblank : field.isBlank = false) : Readable table arena field.ty (p + field.offset) := by
  have hbounds := hp.bounds
  rw [sizeOf_of_get hget] at hbounds
  exact hp.restrict (h.add_field hget hbounds hf).2 (mem_leaves_of_field h hget hbase hf hblank)

theorem Readable.elem (hp : Readable table arena ty p) {elem : TypeId} {len : Word}
    (hkind : e.kind = .array elem len) {i : Nat} (hi : i < len.toNat) :
    Readable table arena elem (p + UInt64.ofNat i * table.sizeOf elem) := by
  have hbounds := hp.bounds
  rw [sizeOf_of_get hget] at hbounds
  exact hp.restrict (h.elementAddr_eq hget hbounds hkind hi).2 (mem_leaves_of_elem hget hbase hkind hi)

theorem ImageWithin.field (hp : ImageWithin table arena n ty p) {field : Field}
    (hf : field ∈ e.fields) (hblank : field.isBlank = false) :
    ImageWithin table arena n field.ty (p + field.offset) := by
  cases n with
  | zero => exact hp
  | succ n =>
    exact ⟨hp.1.field h hget hbase hf hblank, fun dynamic data hholds =>
      hp.2 dynamic data (hholds.of_part (mem_leaves_of_field h hget hbase hf hblank))⟩

theorem ImageWithin.elem (hp : ImageWithin table arena n ty p) {elem : TypeId} {len : Word}
    (hkind : e.kind = .array elem len) {i : Nat} (hi : i < len.toNat) :
    ImageWithin table arena n elem (p + UInt64.ofNat i * table.sizeOf elem) := by
  cases n with
  | zero => exact hp
  | succ n =>
    exact ⟨hp.1.elem h hget hbase hkind hi, fun dynamic data hholds =>
      hp.2 dynamic data (hholds.of_part (mem_leaves_of_elem hget hbase hkind hi))⟩

end Parts

end HashEq
