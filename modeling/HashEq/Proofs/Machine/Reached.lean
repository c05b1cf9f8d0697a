import HashEq.Proofs.Machine.Atoms

/-!
# What counts in a value

Of a value, its atoms count, and so do those of the values that its interfaces hold,
if they can be compared at all. Bytes between and behind the atoms, and those of blank
fields, do not.

* `Reaches`: the atoms that count in a value;
* `Counts`: the bytes that do;
* `reaches_iff`, `counts_iff`: they can be told by going through them all.
-/

namespace HashEq

open TypeTable

/-- An atom at the address `a` counts in the value of type `ty` at `p`. -/
inductive Reaches (table : TypeTable) (arena : Arena) : TypeId → Word → Word → Leaf → Prop
  | own {ty : TypeId} {p offset : Word} {leaf : Leaf} : (offset, leaf) ∈ table.atoms ty →
      Reaches table arena ty p (p + offset) leaf
  | inside {ty dynamic : TypeId} {p data a : Word} {leaf : Leaf} :
      Holds table arena ty p dynamic data → Reaches table arena dynamic data a leaf →
      Reaches table arena ty p a leaf

/-- The ranges of bytes that belong to a leaf at `p`, each with its length. To a string belongs
    what it consists of. -/
def Leaf.ranges (table : TypeTable) (arena : Arena) (p : Word) : Leaf → List (Word × Nat)
  | block size => [(p, size.toNat)]
  | float format => [(p, format.width.toNat)]
  | complex format => [(p, 2 * format.width.toNat)]
  -- What an interface holds is a value of its own (see `Reaches.inside`).
  | interface => [(p, 2 * table.target.pointerSize.toNat)]
  | string => (p, 2 * table.target.pointerSize.toNat) ::
      match Primitives.loadPair table arena p with
      | .ok (data, len) => [(data, len.toNat)]
      | .error _ => []

/-- The byte at the address `i` counts in the value of type `ty` at `p`. -/
def Counts (table : TypeTable) (arena : Arena) (ty : TypeId) (p : Word) (i : Nat) : Prop :=
  ∃ a leaf, Reaches table arena ty p a leaf ∧
    ∃ range ∈ leaf.ranges table arena a, range.1.toNat ≤ i ∧ i < range.1.toNat + range.2

variable {table : TypeTable} {arena : Arena} {ty dynamic : TypeId} {p a data : Word} {leaf : Leaf}
  {n i : Nat}

theorem Counts.inside (hholds : Holds table arena ty p dynamic data)
    (h : Counts table arena dynamic data i) : Counts table arena ty p i := by
  obtain ⟨a, leaf, hreaches, hrange⟩ := h
  exact ⟨a, leaf, .inside hholds hreaches, hrange⟩

/-! ### Going through what counts -/

/-- The value that the interface at `p` holds, with its type, if it can be compared. -/
def heldAt (table : TypeTable) (arena : Arena) (p : Word) : Option (TypeId × Word) := do
  let (word, data) ← (Primitives.loadPair table arena p).toOption
  let dynamic ← (typeOfWord word).toOption
  if word ≠ 0 ∧ table.base dynamic ≠ .noEquality then some (dynamic, data) else none

theorem toOption_eq_some_iff {ε α : Type} {x : Except ε α} {a : α} :
    x.toOption = some a ↔ x = .ok a := by
  cases x with
  | error _ => simp [Except.toOption]
  | ok a' => simp [Except.toOption]

theorem heldAt_eq_some_iff : heldAt table arena p = some (dynamic, data) ↔
    ∃ word, Primitives.loadPair table arena p = .ok (word, data) ∧ word ≠ 0 ∧
      typeOfWord word = .ok dynamic ∧ table.base dynamic ≠ .noEquality := by
  simp only [heldAt, bind, Option.bind_eq_some_iff, toOption_eq_some_iff, Option.ite_none_right_eq_some,
    Option.some_inj, Prod.exists, Prod.mk.injEq]
  constructor
  · rintro ⟨word, _, hload, dynamic, htold, ⟨hword, hne⟩, rfl, rfl⟩
    exact ⟨word, hload, hword, htold, hne⟩
  · rintro ⟨word, hload, hword, htold, hne⟩
    exact ⟨word, data, hload, dynamic, htold, ⟨hword, hne⟩, rfl, rfl⟩

/-- The values that interfaces in the value of type `ty` at `p` hold, with their types. -/
def held (table : TypeTable) (arena : Arena) (ty : TypeId) (p : Word) : List (TypeId × Word) :=
  (table.leaves ty).filterMap fun leaf =>
    match leaf.2 with
    | .interface => heldAt table arena (p + leaf.1)
    | _ => none

theorem mem_held_iff :
    (dynamic, data) ∈ held table arena ty p ↔ Holds table arena ty p dynamic data := by
  rw [held, List.mem_filterMap]
  constructor
  · rintro ⟨⟨offset, leaf⟩, hmem, hheld⟩
    cases leaf with
    | interface =>
      obtain ⟨word, hrest⟩ := heldAt_eq_some_iff.1 hheld
      exact ⟨offset, word, hmem, hrest⟩
    | _ => cases hheld
  · rintro ⟨offset, word, hmem, hrest⟩
    exact ⟨(offset, .interface), hmem, heldAt_eq_some_iff.2 ⟨word, hrest⟩⟩

/-- The atoms that count in a value, where interfaces nest less than `n` deep. -/
def reached (table : TypeTable) (arena : Arena) : Nat → TypeId → Word → List (Word × Leaf)
  | 0, _, _ => []
  | n + 1, ty, p => shift p (table.atoms ty) ++
      (held table arena ty p).flatMap fun inner => reached table arena n inner.1 inner.2

/-- In an image, what counts can be gone through. -/
theorem reaches_iff (hp : ImageWithin table arena n ty p) :
    Reaches table arena ty p a leaf ↔ (a, leaf) ∈ reached table arena n ty p := by
  induction n generalizing ty p with
  | zero => exact hp.elim
  | succ n ih =>
    rw [reached, List.mem_append, mem_shift, List.mem_flatMap]
    constructor
    · rintro (hmem | ⟨hholds, hreaches⟩)
      · exact .inl ⟨_, hmem, rfl⟩
      · exact .inr ⟨(_, _), mem_held_iff.2 hholds, (ih (hp.2 _ _ hholds)).1 hreaches⟩
    · rintro (⟨offset, hmem, rfl⟩ | ⟨⟨dynamic, data⟩, hheld, hmem⟩)
      · exact .own hmem
      · have hholds := mem_held_iff.1 hheld
        exact .inside hholds ((ih (hp.2 _ _ hholds)).2 hmem)

/-- In an image, the bytes that count can be told. -/
theorem counts_iff (hp : ImageWithin table arena n ty p) :
    Counts table arena ty p i ↔ ∃ atom ∈ reached table arena n ty p,
      ∃ range ∈ atom.2.ranges table arena atom.1, range.1.toNat ≤ i ∧ i < range.1.toNat + range.2 := by
  simp only [Counts, reaches_iff hp, Prod.exists]

end HashEq
