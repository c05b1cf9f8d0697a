import HashEq.Proofs.Machine.Consistency
import HashEq.Proofs.Machine.Reached
import HashEq.Proofs.Machine.Writing

/-!
# Only what counts matters

Comparing and hashing values reads blocks that may span several fields, but of all the
bytes in memory none matters that does not count in the values: in arenas that agree
on what counts, images of values are images of the same values, they compare alike,
and they hash alike. So padding and blank fields can be overwritten at any time.

* `Arena.AgreeOn`: arenas of one size that have the same bytes at some addresses;
* `Leaf.equal_agreeOn`, `Leaf.hash_agreeOn`: leaves that belong to those bytes;
* `Leaves.equalWithin_agreeOn`, `Leaves.hashWithin_agreeOn`: values whose bytes that
  count do;
* `Machine.answers_write_of_not_counts`: bytes that do not count.
-/

namespace HashEq

open Session TypeTable

namespace Arena

/-- Two arenas have one size, and the same bytes at some addresses. -/
structure AgreeOn (arena other : Arena) (s : Nat → Prop) : Prop where
  size : other.size = arena.size
  byte? : ∀ i, s i → other.byte? i = arena.byte? i

/-- All of the `n` bytes from `p` on are at some addresses. -/
def Within (s : Nat → Prop) (p : Word) (n : Nat) : Prop :=
  ∀ i, p.toNat ≤ i → i < p.toNat + n → s i

namespace Within

variable {s : Nat → Prop} {p p' offset : Word} {m n : Nat}

theorem head (h : Within s p n) (hm : m ≤ n) : Within s p m :=
  fun i hlo hhi => h i hlo (by omega)

theorem tail (h : Within s p (offset.toNat + n))
    (hadd : (liftM (Word.add p offset) : Except EvalError Word) = .ok p') : Within s p' n := by
  cases hsum : Word.add p offset with
  | error f =>
    rw [hsum] at hadd
    cases hadd
  | ok sum =>
    rw [hsum] at hadd
    cases hadd
    have htoNat := Word.toNat_of_add hsum
    exact fun i hlo hhi => h i (by omega) (by omega)

end Within

namespace AgreeOn

variable {arena other : Arena} {s : Nat → Prop} {table : TypeTable} {p q len width seed : Word}
  {n : Nat} {format : FloatFormat}

theorem inBounds (h : arena.AgreeOn other s) : other.inBounds p n = arena.inBounds p n := by
  rw [Arena.inBounds, Arena.inBounds, h.size]

/-- A byte that is written changes no others. -/
theorem of_write {addr : Word} {byte : UInt8} (h : arena.write addr [byte] = .ok other) :
    arena.AgreeOn other (· ≠ addr.toNat) := by
  obtain ⟨hbounds, rfl⟩ := write_eq_ok_iff.1 h
  refine ⟨size_put _ _ _, fun i hi => ?_⟩
  rw [byte?_put hbounds, if_neg]
  rw [List.length_singleton]
  omega

/-! ### Primitives -/

variable (h : arena.AgreeOn other s)
include h

/-- What is read is the same, and so is what cannot be read. -/
theorem read (hp : Within s p len.toNat) : other.read p len = arena.read p len := by
  by_cases hbounds : arena.inBounds p len.toNat = true
  · rcases inBounds_iff.1 hbounds with hzero | hspans
    -- No bytes are read, so it makes no difference where from.
    · rw [read_eq (h.inBounds.trans hbounds) rfl, read_eq hbounds rfl, hzero, bytesAt_zero,
        bytesAt_zero]
    · have hstop : arena.stop ≤ other.stop := Nat.le_of_eq (congrArg (base + ·) h.size.symm)
      exact read_congr hspans hstop fun i hlo hhi => h.byte? i (hp i hlo hhi)
  · rw [Arena.read, Arena.read, h.inBounds, if_neg hbounds, if_neg hbounds]

theorem readWord (hp : Within s p width.toNat) : other.readWord p width = arena.readWord p width := by
  rw [Arena.readWord, Arena.readWord, h.read hp]

theorem loadPair (hp : Within s p (2 * table.target.pointerSize.toNat)) :
    Primitives.loadPair table other p = Primitives.loadPair table arena p := by
  rw [Nat.two_mul] at hp
  rw [Primitives.loadPair, Primitives.loadPair, Primitives.loadWord, Primitives.loadWord,
    h.readWord (hp.head (Nat.le_add_right _ _))]
  refine bind_congr_ok fun first _ => bind_congr_ok fun p' hadd => ?_
  rw [Primitives.loadWord, Primitives.loadWord, h.readWord (hp.tail hadd)]

theorem memoryEqual (hp : Within s p len.toNat) (hq : Within s q len.toNat) :
    Primitives.memoryEqual other p q len = Primitives.memoryEqual arena p q len := by
  rw [Primitives.memoryEqual, Primitives.memoryEqual, h.read hp, h.read hq]

theorem memoryHash (hp : Within s p len.toNat) :
    Primitives.memoryHash other p len seed = Primitives.memoryHash arena p len seed := by
  rw [Primitives.memoryHash, Primitives.memoryHash, h.read hp]

theorem floatEqual (hp : Within s p format.width.toNat) (hq : Within s q format.width.toNat) :
    Primitives.floatEqual other format p q = Primitives.floatEqual arena format p q := by
  rw [Primitives.floatEqual, Primitives.floatEqual, h.readWord hp, h.readWord hq]

theorem floatHash (hp : Within s p format.width.toNat) :
    Primitives.floatHash other format p seed = Primitives.floatHash arena format p seed := by
  rw [Primitives.floatHash, Primitives.floatHash, h.readWord hp, h.memoryHash hp]

theorem complexEqual (hp : Within s p (2 * format.width.toNat))
    (hq : Within s q (2 * format.width.toNat)) :
    Primitives.complexEqual other format p q = Primitives.complexEqual arena format p q := by
  rw [Nat.two_mul] at hp hq
  rw [Primitives.complexEqual, Primitives.complexEqual,
    h.floatEqual (hp.head (Nat.le_add_right _ _)) (hq.head (Nat.le_add_right _ _))]
  refine bind_congr_ok fun real _ => ?_
  split
  · refine bind_congr_ok fun p' hp' => bind_congr_ok fun q' hq' => ?_
    exact h.floatEqual (hp.tail hp') (hq.tail hq')
  · rfl

theorem complexHash (hp : Within s p (2 * format.width.toNat)) :
    Primitives.complexHash other format p seed = Primitives.complexHash arena format p seed := by
  rw [Nat.two_mul] at hp
  rw [Primitives.complexHash, Primitives.complexHash, h.floatHash (hp.head (Nat.le_add_right _ _))]
  refine bind_congr_ok fun state _ => bind_congr_ok fun p' hadd => ?_
  exact h.floatHash (hp.tail hadd)

end AgreeOn

end Arena

/-! ### Leaves -/

section Leaves

open Arena

variable {table : TypeTable} {arena other : Arena} {s : Nat → Prop} {leaf : Leaf} {p q : Word}

/-- All bytes that belong to a leaf are at some addresses. -/
def Leaf.Within (table : TypeTable) (arena : Arena) (s : Nat → Prop) (p : Word) (leaf : Leaf) : Prop :=
  ∀ range ∈ leaf.ranges table arena p, Arena.Within s range.1 range.2

namespace Leaf

theorem Within.string (hp : Leaf.string.Within table arena s p) :
    Arena.Within s p (2 * table.target.pointerSize.toNat) ∧
      ∀ data len, Primitives.loadPair table arena p = .ok (data, len) →
        Arena.Within s data len.toNat := by
  refine ⟨hp _ List.mem_cons_self, fun data len hload => hp (data, len.toNat) ?_⟩
  rw [ranges, hload]
  exact List.mem_cons_of_mem _ (List.mem_singleton_self _)

/-- Leaves whose bytes are the same in two arenas compare alike. -/
theorem equal_agreeOn (h : arena.AgreeOn other s) (hp : leaf.Within table arena s p)
    (hq : leaf.Within table arena s q) (dynamic : TypeId → Word → Word → Except EvalError Bool) :
    leaf.equal table other dynamic p q = leaf.equal table arena dynamic p q := by
  cases leaf with
  | block size =>
    exact h.memoryEqual (hp _ (List.mem_singleton_self _)) (hq _ (List.mem_singleton_self _))
  | float format =>
    exact h.floatEqual (hp _ (List.mem_singleton_self _)) (hq _ (List.mem_singleton_self _))
  | complex format =>
    exact h.complexEqual (hp _ (List.mem_singleton_self _)) (hq _ (List.mem_singleton_self _))
  | string =>
    obtain ⟨hpHeader, hpBytes⟩ := hp.string
    obtain ⟨hqHeader, hqBytes⟩ := hq.string
    rw [Leaf.equal, Leaf.equal, Primitives.stringEqual, Primitives.stringEqual,
      h.loadPair hpHeader, h.loadPair hqHeader]
    refine bind_congr_ok ?_
    rintro ⟨pData, pLen⟩ hpLoad
    refine bind_congr_ok ?_
    rintro ⟨qData, qLen⟩ hqLoad
    dsimp only
    split
    · next hlen => exact h.memoryEqual (hpBytes _ _ hpLoad) (hlen ▸ hqBytes _ _ hqLoad)
    · rfl
  | interface =>
    rw [Leaf.equal, Leaf.equal, h.loadPair (hp _ (List.mem_singleton_self _)),
      h.loadPair (hq _ (List.mem_singleton_self _))]

/-- Leaves whose bytes are the same in two arenas hash alike. -/
theorem hash_agreeOn (h : arena.AgreeOn other s) (hp : leaf.Within table arena s p)
    (dynamic : TypeId → Word → Word → Except EvalError Word) (seed : Word) :
    leaf.hash table other dynamic p seed = leaf.hash table arena dynamic p seed := by
  cases leaf with
  | block size => exact h.memoryHash (hp _ (List.mem_singleton_self _))
  | float format => exact h.floatHash (hp _ (List.mem_singleton_self _))
  | complex format => exact h.complexHash (hp _ (List.mem_singleton_self _))
  | string =>
    obtain ⟨hheader, hbytes⟩ := hp.string
    rw [Leaf.hash, Leaf.hash, Primitives.stringHash, Primitives.stringHash, h.loadPair hheader]
    refine bind_congr_ok ?_
    rintro ⟨data, len⟩ hload
    exact h.memoryHash (hbytes _ _ hload)
  | interface =>
    rw [Leaf.hash, Leaf.hash, h.loadPair (hp _ (List.mem_singleton_self _))]

end Leaf

end Leaves

/-! ### Images -/

section Images

variable {table : TypeTable} {arena other : Arena} {s : Nat → Prop} {ty : TypeId} {p q seed : Word}
  {n : Nat}

/-- The bytes of an atom count. -/
theorem Leaf.within_counts {offset : Word} {leaf : Leaf}
    (hcounts : ∀ i, Counts table arena ty p i → s i) (hmem : (offset, leaf) ∈ table.atoms ty) :
    leaf.Within table arena s (p + offset) :=
  fun range hrange i hlo hhi => hcounts i ⟨_, leaf, .own hmem, range, hrange, hlo, hhi⟩

variable (h : Lawful table) (hagree : arena.AgreeOn other s)
include h hagree

/-- The header of a string or of an interface counts. -/
theorem loadPair_agreeOn (hcounts : ∀ i, Counts table arena ty p i → s i) {offset : Word}
    {leaf : Leaf} (hleaf : leaf = .string ∨ leaf = .interface)
    (hmem : (offset, leaf) ∈ table.leaves ty) :
    Primitives.loadPair table other (p + offset) = Primitives.loadPair table arena (p + offset) := by
  rcases hleaf with rfl | rfl
  · have hatom := (mem_atoms_iff h fun _ => Leaf.noConfusion).2 hmem
    exact hagree.loadPair (Leaf.within_counts hcounts hatom).string.1
  · have hatom := (mem_atoms_iff h fun _ => Leaf.noConfusion).2 hmem
    exact hagree.loadPair (Leaf.within_counts hcounts hatom _ (List.mem_singleton_self _))

/-- Interfaces hold the same values. -/
theorem Holds.agreeOn (hcounts : ∀ i, Counts table arena ty p i → s i) {dynamic : TypeId}
    {data : Word} (hholds : Holds table other ty p dynamic data) :
    Holds table arena ty p dynamic data := by
  obtain ⟨offset, word, hmem, hload, hrest⟩ := hholds
  rw [loadPair_agreeOn h hagree hcounts (.inr rfl) hmem] at hload
  exact ⟨offset, word, hmem, hload, hrest⟩

/-- Images are images wherever the bytes that count in them are the same. -/
theorem Image.agreeOn (hp : Image table arena ty p) (hcounts : ∀ i, Counts table arena ty p i → s i) :
    Image table other ty p := by
  induction hp with
  | @intro ty p hreadable _ ih =>
    refine .intro ⟨hagree.inBounds.trans hreadable.bounds, ?_, ?_⟩ fun dynamic data hholds => ?_
    -- What a header says is the same, so what it points to is where it was.
    · intro offset data len hmem hload
      rw [loadPair_agreeOn h hagree hcounts (.inl rfl) hmem] at hload
      exact hagree.inBounds.trans (hreadable.strings hmem hload)
    · intro offset word data hmem hload hword
      rw [loadPair_agreeOn h hagree hcounts (.inr rfl) hmem] at hload
      exact hreadable.interfaces hmem hload hword
    · have hholds := hholds.agreeOn h hagree hcounts
      exact ih dynamic data hholds fun i hi => hcounts i (hi.inside hholds)

variable (hwhole : table.OpaqueWhole) (hty : table.Has ty) (hne : table.base ty ≠ .noEquality)
include hwhole hty hne

/-- One step of the walk along a type compares alike. -/
theorem Leaves.equalVia_agreeOn (hp : arena.inBounds p (table.sizeOf ty).toNat = true)
    (hq : arena.inBounds q (table.sizeOf ty).toNat = true)
    (hpCounts : ∀ i, Counts table arena ty p i → s i)
    (hqCounts : ∀ i, Counts table arena ty q i → s i)
    (dynamic : TypeId → Word → Word → Except EvalError Bool) :
    equalVia table other dynamic ty p q = equalVia table arena dynamic ty p q := by
  -- Blocks span several atoms, so the atoms are compared by the walk instead.
  have hp' := hagree.inBounds.trans hp
  have hq' := hagree.inBounds.trans hq
  rw [← Structural.equalVia_eq_leaves h hwhole hty hne hp hq,
    ← Structural.equalVia_eq_leaves h hwhole hty hne hp' hq',
    Structural.equalVia_eq_atoms h hty hne hp hq, Structural.equalVia_eq_atoms h hty hne hp' hq']
  exact conj_map_congr fun leaf hmem => Leaf.equal_agreeOn hagree
    (Leaf.within_counts hpCounts hmem) (Leaf.within_counts hqCounts hmem) dynamic

/-- One step of the walk along a type hashes alike. -/
theorem Leaves.hashVia_agreeOn (hp : arena.inBounds p (table.sizeOf ty).toNat = true)
    (hcounts : ∀ i, Counts table arena ty p i → s i)
    (dynamic : TypeId → Word → Word → Except EvalError Word) :
    hashVia table other dynamic ty p seed = hashVia table arena dynamic ty p seed := by
  have hp' := hagree.inBounds.trans hp
  rw [← Structural.hashVia_eq_leaves h hwhole hty hne hp,
    ← Structural.hashVia_eq_leaves h hwhole hty hne hp',
    Structural.hashVia_eq_atoms h hty hne hp, Structural.hashVia_eq_atoms h hty hne hp']
  exact foldlM_congr (fun state leaf hmem =>
    Leaf.hash_agreeOn hagree (Leaf.within_counts hcounts hmem) dynamic state) seed

/-- Images compare alike wherever the bytes that count in them are the same. -/
theorem Leaves.equalWithin_agreeOn (hp : ImageWithin table arena n ty p)
    (hq : ImageWithin table arena n ty q) (hpCounts : ∀ i, Counts table arena ty p i → s i)
    (hqCounts : ∀ i, Counts table arena ty q i → s i) :
    equalWithin table other n ty p q = equalWithin table arena n ty p q := by
  induction n generalizing ty p q with
  | zero => rfl
  | succ n ih =>
    rw [equalWithin, equalWithin, equalVia_agreeOn h hagree hwhole hty hne hp.readable.bounds
      hq.readable.bounds hpCounts hqCounts]
    refine equalVia_congr fun inner pData qData hhas hne' hpHolds hqHolds => ?_
    exact ih hhas hne' (hp.2 inner pData hpHolds) (hq.2 inner qData hqHolds)
      (fun i hi => hpCounts i (hi.inside hpHolds)) fun i hi => hqCounts i (hi.inside hqHolds)

/-- Images hash alike wherever the bytes that count in them are the same. -/
theorem Leaves.hashWithin_agreeOn (hp : ImageWithin table arena n ty p)
    (hcounts : ∀ i, Counts table arena ty p i → s i) :
    hashWithin table other n ty p seed = hashWithin table arena n ty p seed := by
  induction n generalizing ty p seed with
  | zero => rfl
  | succ n ih =>
    rw [hashWithin, hashWithin, hashVia_agreeOn h hagree hwhole hty hne hp.readable.bounds hcounts]
    refine hashVia_congr (fun inner data seed hhas hne' hholds => ?_) seed
    exact ih hhas hne' (hp.2 inner data hholds) fun i hi => hcounts i (hi.inside hholds)

end Images

/-! ### Machines -/

namespace Machine

variable {table : TypeTable} {machine machine' : Machine} {ty : TypeId} {p q : Word}

/-- A byte that counts in neither of two values can be overwritten, by any byte and at any time:
    the values are compared and hashed as before. -/
theorem answers_write_of_not_counts (hbuilt : Built table)
    (hpointer : table.target.pointerSize.toNat ≤ 8) (hwhole : table.OpaqueWhole)
    (hdistinct : table.TextsDistinct) (hmachine : Reachable table machine)
    (hmachine' : Reachable table machine') (hty : table.Has ty)
    (hne : table.base ty ≠ .noEquality) (hp : Image table machine.arena ty p)
    (hq : Image table machine.arena ty q) {addr : Word} {byte : UInt8}
    (hwrite : machine.arena.write addr [byte] = .ok machine'.arena)
    (hpCounts : ¬Counts table machine.arena ty p addr.toNat)
    (hqCounts : ¬Counts table machine.arena ty q addr.toNat) :
    (equal ty p q machine').1 = (equal ty p q machine).1 ∧
      ∀ seed, (hash ty p seed machine').1 = (hash ty p seed machine).1 := by
  have h := hbuilt.lawful
  have hagree := Arena.AgreeOn.of_write hwrite
  have hpOther : ∀ i, Counts table machine.arena ty p i → i ≠ addr.toNat :=
    fun i hi heq => hpCounts (heq ▸ hi)
  have hqOther : ∀ i, Counts table machine.arena ty q i → i ≠ addr.toNat :=
    fun i hi heq => hqCounts (heq ▸ hi)
  have hp' := hp.agreeOn h hagree hpOther
  have hq' := hq.agreeOn h hagree hqOther
  have hplaces := placeNumber_lt
  constructor
  · rw [equal_eq_leaves hbuilt hpointer hdistinct hmachine hty hne hp hq,
      equal_eq_leaves hbuilt hpointer hdistinct hmachine' hty hne hp' hq']
    exact Leaves.equalWithin_agreeOn h hagree hwhole hty hne (hp.within hplaces) (hq.within hplaces)
      hpOther hqOther
  · intro seed
    rw [hash_eq_leaves hbuilt hpointer hdistinct hmachine hty hne hp,
      hash_eq_leaves hbuilt hpointer hdistinct hmachine' hty hne hp']
    exact Leaves.hashWithin_agreeOn h hagree hwhole hty hne (hp.within hplaces) hpOther

/-- Of two pairs of pairs, the blank byte and those behind it can be overwritten. -/
theorem answers_write_of_not_counts_pairs :
    let machine' := { pairMachine with arena := pairArena.put 4130 [9] }
    (equal ⟨33⟩ 4096 4168 machine').1 = (equal ⟨33⟩ 4096 4168 pairMachine).1 ∧
      (hash ⟨33⟩ 4096 7 machine').1 = (hash ⟨33⟩ 4096 7 pairMachine).1 := by
  intro machine'
  have hreachable : Reachable pairTable machine' := .memory _ reachable_pairMachine
  have hp : ImageWithin pairTable pairArena 2 ⟨33⟩ 4096 := by decide +kernel
  have hq : ImageWithin pairTable pairArena 2 ⟨33⟩ 4168 := by decide +kernel
  have hwrite : pairArena.write 4130 [9] = .ok machine'.arena :=
    Arena.write_eq_ok_iff.2 ⟨by decide +kernel, rfl⟩
  have hanswers := answers_write_of_not_counts built_pairTable (by decide +kernel)
    opaqueWhole_pairTable textsDistinct_pairTable reachable_pairMachine hreachable (by decide +kernel)
    (by decide +kernel) image_pairArena.1 image_pairArena.2 hwrite
    ((not_congr (counts_iff hp)).2 (by decide +kernel))
    ((not_congr (counts_iff hq)).2 (by decide +kernel))
  exact ⟨hanswers.1, hanswers.2 7⟩

end Machine

end HashEq
