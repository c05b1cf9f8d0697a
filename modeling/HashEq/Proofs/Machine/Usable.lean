import HashEq.Proofs.Machine.Accesses
import HashEq.Proofs.Machine.AlignedPlaces
import HashEq.Proofs.Machine.Reached
import HashEq.Proofs.Machine.StoredEquality
import HashEq.Proofs.Machine.StoreFrame

/-!
# Stored values are usable

A value that has been stored can be compared and hashed, by generated code and along
its type, unless one of its interfaces holds a value without equality. For that the
addresses that are stored have to be those that are loaded again: words are stored as
eight bytes at most and loaded with the width of a pointer, which must not be more, and
all addresses and the words for types have to fit.

* `Tells`: an interface in a value holds a value of a type;
* `Settles`: there is an answer, or a panic about a type without equality that is told;
* `Parts.equal_settles`, `Parts.hash_settles`: what can be read can be used, if what its
  interfaces hold can;
* `Leaves.equalWithin_settles`, `Structural.equalWithin_settles` and the same for hashing:
  so can images, whichever way they are taken apart;
* `Machine.usable_of_store`: what is stored can be used, if pointers hold at most eight
  bytes;
* `Machine.storesUsably_iff`: and only then.
-/

namespace HashEq

open Session TypeTable

/-- An interface in the value of type `ty` at `p` holds a value of type `told`. -/
def Tells (table : TypeTable) (arena : Arena) (ty : TypeId) (p : Word) (told : TypeId) : Prop :=
  ∃ a word data, Reaches table arena ty p a .interface ∧
    Primitives.loadPair table arena a = .ok (word, data) ∧ typeOfWord word = .ok told

/-- There is an answer, or the panic about a type that has no equality, and is among those told. -/
def Settles {α : Type} (table : TypeTable) (told : TypeId → Prop) (panic : String → EvalError)
    (x : Except EvalError α) : Prop :=
  (∃ a, x = .ok a) ∨ ∃ ty text, told ty ∧ table.base ty = .noEquality ∧
    table.text ty = .ok text ∧ x = .error (panic text)

variable {table : TypeTable} {arena : Arena} {ty : TypeId} {p seed : Word} {n : Nat}
  {told : TypeId → Prop} {panic : String → EvalError}

/-- What interfaces tell in a value that an interface holds, they tell in the whole. -/
theorem Tells.inside {inner dynamic : TypeId} {data : Word}
    (hholds : Holds table arena ty p inner data) (h : Tells table arena inner data dynamic) :
    Tells table arena ty p dynamic := by
  obtain ⟨a, word, held, hreaches, hload, htype⟩ := h
  exact ⟨a, word, held, .inside hholds hreaches, hload, htype⟩

namespace Settles

variable {α β : Type} {x : Except EvalError α}

theorem imp {told' : TypeId → Prop} (h : Settles table told panic x)
    (himp : ∀ ty, told ty → told' ty) : Settles table told' panic x := by
  rcases h with hok | ⟨ty, text, htold, hrest⟩
  · exact .inl hok
  · exact .inr ⟨ty, text, himp ty htold, hrest⟩

theorem ok (a : α) : Settles table told panic (.ok a) :=
  .inl ⟨a, rfl⟩

theorem bind {next : α → Except EvalError β} (hx : Settles table told panic x)
    (hnext : ∀ a, x = .ok a → Settles table told panic (next a)) :
    Settles table told panic (x >>= next) := by
  rcases hx with ⟨a, rfl⟩ | ⟨ty, text, htold, hbase, htext, rfl⟩
  · exact hnext a rfl
  · exact .inr ⟨ty, text, htold, hbase, htext, rfl⟩

theorem conj {l : List α} {v : α → Except EvalError Bool}
    (hv : ∀ a ∈ l, Settles table told panic (v a)) : Settles table told panic (conj (l.map v)) := by
  induction l with
  | nil => exact .ok true
  | cons a l ih =>
    rw [List.map_cons, conj_cons]
    refine (hv a List.mem_cons_self).bind fun b _ => ?_
    cases b with
    | false => exact .ok false
    | true => exact ih fun a ha => hv a (List.mem_cons_of_mem _ ha)

theorem foldlM {l : List α} {step : β → α → Except EvalError β}
    (hstep : ∀ b, ∀ a ∈ l, Settles table told panic (step b a)) (b : β) :
    Settles table told panic (l.foldlM step b) := by
  induction l generalizing b with
  | nil => exact .ok b
  | cons a l ih =>
    rw [List.foldlM_cons]
    exact (hstep b a List.mem_cons_self).bind fun b _ =>
      ih (fun b a ha => hstep b a (List.mem_cons_of_mem _ ha)) b

end Settles

/-- The type that an interface tells is one to go on with, or the one that the panic is about. -/
theorem dynamicType_settles (h : Lawful table) (refuse : String → EvalError) {word : Word}
    {dynamic : TypeId} (htype : typeOfWord word = .ok dynamic) (hhas : table.Has dynamic)
    (htold : told dynamic) :
    Settles table told refuse (Structural.dynamicType table refuse word) := by
  rw [dynamicType_eq h refuse htype hhas]
  split
  · next hbase => exact .inr ⟨dynamic, _, htold, hbase, h.text_eq hhas, rfl⟩
  · exact .ok dynamic

/-! ### Leaves of what can be read -/

/-- The leaves of what is read as a value of a type, or these with their blocks taken apart. -/
structure Parts (table : TypeTable) (arena : Arena) (ty : TypeId) (p : Word)
    (parts : List (Word × Leaf)) : Prop where
  fits : ∀ part ∈ parts, part.2.Fits table arena (p + part.1)
  leaves : ∀ part ∈ parts, (∀ size, part.2 ≠ .block size) →
    part ∈ table.leaves ty ∧ part ∈ table.atoms ty

theorem Readable.parts_leaves (h : Lawful table) (hp : Readable table arena ty p) :
    Parts table arena ty p (table.leaves ty) :=
  ⟨fun _ hmem => hp.fits h hmem, fun _ hmem hleaf => ⟨hmem, (mem_atoms_iff h hleaf).2 hmem⟩⟩

theorem Readable.parts_atoms (h : Lawful table) (hp : Readable table arena ty p) :
    Parts table arena ty p (table.atoms ty) :=
  ⟨fun _ hmem => fits_of_mem_atoms h hp.bounds hmem,
    fun _ hmem hleaf => ⟨(mem_atoms_iff h hleaf).1 hmem, hmem⟩⟩

namespace Parts

variable {parts : List (Word × Leaf)}

/-- An interface that is not nil tells a type of the table, which it holds if that has equality. -/
theorem interface_settles (hparts : Parts table arena ty p parts) (h : Lawful table)
    (hp : Readable table arena ty p) (refuse : String → EvalError) {offset word data : Word}
    (hmem : (offset, Leaf.interface) ∈ parts)
    (hload : Primitives.loadPair table arena (p + offset) = .ok (word, data)) (hword : word ≠ 0) :
    Settles table (Tells table arena ty p) refuse (Structural.dynamicType table refuse word) ∧
      ∀ inner, Structural.dynamicType table refuse word = .ok inner →
        Holds table arena ty p inner data := by
  obtain ⟨hleaf, hatom⟩ := hparts.leaves _ hmem nofun
  obtain ⟨dynamic, htype, hhas⟩ := hp.interfaces hleaf hload hword
  refine ⟨dynamicType_settles h refuse htype hhas ⟨_, word, data, .own hatom, hload, htype⟩,
    fun inner hinner => ?_⟩
  obtain ⟨htype, _, hne⟩ := of_dynamicType hinner
  exact ⟨offset, word, hleaf, hload, hword, htype, hne⟩

/-- Values that can be read are compared with themselves, if the values that their interfaces hold
    are. -/
theorem equal_settles (hparts : Parts table arena ty p parts) (h : Lawful table)
    (hpointer : table.target.pointerSize.toNat ≤ 8) (hp : Readable table arena ty p)
    {dynamic : TypeId → Word → Word → Except EvalError Bool}
    (hdynamic : ∀ inner data, Holds table arena ty p inner data →
      Settles table (Tells table arena inner data) .uncomparable (dynamic inner data data)) :
    Settles table (Tells table arena ty p) .uncomparable (conj (parts.map fun part =>
      part.2.equal table arena dynamic (p + part.1) (p + part.1))) := by
  refine .conj fun (offset, leaf) hmem => ?_
  have hfits := hparts.fits _ hmem
  by_cases hleaf : leaf = .interface
  · subst hleaf
    obtain ⟨word, data, hload⟩ :=
      hp.loadPair_isOk h hpointer (hparts.leaves _ hmem nofun).1 (.inr rfl)
    rw [Leaf.equal_interface hload hload, if_neg (not_not_intro rfl)]
    -- Nil is equal to itself, and any other interface is compared as what it holds.
    split
    · exact .ok true
    next hzero =>
    obtain ⟨hsettles, hheld⟩ := hparts.interface_settles h hp .uncomparable hmem hload hzero
    refine hsettles.bind fun inner hinner => ?_
    have hholds := hheld inner hinner
    exact (hdynamic inner data hholds).imp fun _ => .inside hholds
  · have hstring : ∀ data len, leaf = .string →
        Primitives.loadPair table arena (p + offset) = .ok (data, len) →
        arena.inBounds data len.toNat = true := by
      rintro data len rfl hload
      exact hp.strings (hparts.leaves _ hmem nofun).1 hload
    exact .inl (Leaf.equal_isOk hleaf hpointer hfits hfits hstring hstring dynamic)

/-- Values that can be read are hashed, if the values that their interfaces hold are. -/
theorem hash_settles (hparts : Parts table arena ty p parts) (h : Lawful table)
    (hpointer : table.target.pointerSize.toNat ≤ 8) (hp : Readable table arena ty p)
    {dynamic : TypeId → Word → Word → Except EvalError Word}
    (hdynamic : ∀ inner data, Holds table arena ty p inner data → ∀ seed,
      Settles table (Tells table arena inner data) .unhashable (dynamic inner data seed))
    (seed : Word) :
    Settles table (Tells table arena ty p) .unhashable (parts.foldlM (fun state part =>
      part.2.hash table arena dynamic (p + part.1) state) seed) := by
  refine .foldlM (fun state (offset, leaf) hmem => ?_) seed
  have hfits := hparts.fits _ hmem
  by_cases hleaf : leaf = .interface
  · subst hleaf
    obtain ⟨word, data, hload⟩ :=
      hp.loadPair_isOk h hpointer (hparts.leaves _ hmem nofun).1 (.inr rfl)
    rw [Leaf.hash_interface hload]
    -- Nil leaves the state as it is, and any other interface is hashed as what it holds.
    split
    · exact .ok state
    next hzero =>
    obtain ⟨hsettles, hheld⟩ := hparts.interface_settles h hp .unhashable hmem hload hzero
    refine hsettles.bind fun inner hinner => ?_
    have hholds := hheld inner hinner
    exact ((hdynamic inner data hholds _).imp fun _ => .inside hholds).bind fun _ _ => .ok _
  · refine .inl (Leaf.hash_isOk hleaf hpointer hfits ?_ dynamic state)
    rintro data len rfl hload
    exact hp.strings (hparts.leaves _ hmem nofun).1 hload

end Parts

/-! ### Images -/

namespace Leaves

/-- Images are compared with themselves leaf by leaf. -/
theorem equalWithin_settles (h : Lawful table) (hpointer : table.target.pointerSize.toNat ≤ 8)
    (hp : ImageWithin table arena n ty p) :
    Settles table (Tells table arena ty p) .uncomparable (equalWithin table arena n ty p p) := by
  induction n generalizing ty p with
  | zero => exact hp.elim
  | succ n ih =>
    exact (hp.1.parts_leaves h).equal_settles h hpointer hp.1 fun inner data hholds =>
      ih (hp.2 inner data hholds)

/-- Images are hashed leaf by leaf. -/
theorem hashWithin_settles (h : Lawful table) (hpointer : table.target.pointerSize.toNat ≤ 8)
    (hp : ImageWithin table arena n ty p) (seed : Word) :
    Settles table (Tells table arena ty p) .unhashable (hashWithin table arena n ty p seed) := by
  induction n generalizing ty p seed with
  | zero => exact hp.elim
  | succ n ih =>
    exact (hp.1.parts_leaves h).hash_settles h hpointer hp.1
      (fun inner data hholds seed => ih (hp.2 inner data hholds) seed) seed

end Leaves

/-- What an interface holds is a value of a type of the table. -/
theorem Holds.has (hp : Readable table arena ty p) {inner : TypeId} {data : Word}
    (h : Holds table arena ty p inner data) : table.Has inner ∧ table.base inner ≠ .noEquality := by
  obtain ⟨offset, word, hmem, hload, hword, htold, hne⟩ := h
  obtain ⟨inner', htold', hhas⟩ := hp.interfaces hmem hload hword
  rw [htold] at htold'
  cases htold'
  exact ⟨hhas, hne⟩

namespace Structural

/-- Images are compared with themselves along their types. -/
theorem equalWithin_settles (h : Lawful table) (hpointer : table.target.pointerSize.toNat ≤ 8)
    (hty : table.Has ty) (hne : table.base ty ≠ .noEquality)
    (hp : ImageWithin table arena n ty p) :
    Settles table (Tells table arena ty p) .uncomparable (equalWithin table arena n ty p p) := by
  induction n generalizing ty p with
  | zero => exact hp.elim
  | succ n ih =>
    rw [equalWithin, equalVia_eq_atoms h hty hne hp.1.bounds hp.1.bounds]
    refine (hp.1.parts_atoms h).equal_settles h hpointer hp.1 fun inner data hholds => ?_
    obtain ⟨hhas, hne⟩ := hholds.has hp.1
    exact ih hhas hne (hp.2 inner data hholds)

/-- Images are hashed along their types. -/
theorem hashWithin_settles (h : Lawful table) (hpointer : table.target.pointerSize.toNat ≤ 8)
    (hty : table.Has ty) (hne : table.base ty ≠ .noEquality)
    (hp : ImageWithin table arena n ty p) (seed : Word) :
    Settles table (Tells table arena ty p) .unhashable (hashWithin table arena n ty p seed) := by
  induction n generalizing ty p seed with
  | zero => exact hp.elim
  | succ n ih =>
    rw [hashWithin, hashVia_eq_atoms h hty hne hp.1.bounds]
    refine (hp.1.parts_atoms h).hash_settles h hpointer hp.1 (fun inner data hholds seed => ?_) seed
    obtain ⟨hhas, hne⟩ := hholds.has hp.1
    exact ih hhas hne (hp.2 inner data hholds) seed

end Structural

/-! ### Machines -/

namespace Machine

variable {machine after : Machine} {value : Value} {fill : UInt8}

/-- There is an answer about the value of type `ty` at `p`, or a panic about a type without equality
    that one of its interfaces tells. -/
def SettlesAt {α : Type} (machine : Machine) (ty : TypeId) (p : Word) (panic : String → EvalError)
    (x : Except EvalError α) : Prop :=
  Settles machine.table (Tells machine.table machine.arena ty p) panic x

/-- The value of type `ty` at `p` can be compared with itself, and hashed from any state on. -/
structure Usable (machine : Machine) (ty : TypeId) (p : Word) : Prop where
  equal : machine.SettlesAt ty p .uncomparable (equal ty p p machine).1
  hash : ∀ seed, machine.SettlesAt ty p .unhashable (hash ty p seed machine).1
  structuralEqual : machine.SettlesAt ty p .uncomparable (structuralEqual ty p p machine).1
  structuralHash : ∀ seed, machine.SettlesAt ty p .unhashable (structuralHash ty p seed machine).1

/-- Whatever has been asked of a machine, every value that is stored can be used, as long as
    pointers hold all addresses or the value leads to none. -/
def StoresUsably (table : TypeTable) : Prop :=
  ∀ (machine after : Machine) (ty : TypeId) (value : Value) (fill : UInt8) (p : Word),
    Reachable table machine → table.algorithm ty ≠ .noEquality → value.Faithful table ty →
    store ty value fill machine = (.ok p, after) →
    (value.leads = true → after.arena.stop < 256 ^ table.target.pointerSize.toNat) →
    after.Usable ty p

/-- Images can be used. -/
theorem usable_of_image (hbuilt : Built table) (hpointer : table.target.pointerSize.toNat ≤ 8)
    (hdistinct : table.TextsDistinct) (hmachine : Reachable table machine) (hty : table.Has ty)
    (hne : table.base ty ≠ .noEquality) (hp : Image table machine.arena ty p) :
    machine.Usable ty p := by
  have h := hbuilt.lawful
  obtain ⟨rfl, -⟩ := hmachine.sound hbuilt
  have hwithin := hp.within placeNumber_lt
  -- The walk along a type may nest deeper than there are places.
  have hdeep : ImageWithin machine.table machine.arena Evaluation.callLimit ty p :=
    hp.within fun place => Nat.lt_of_lt_of_le (placeNumber_lt place) Evaluation.limit_le_callLimit
  refine ⟨?_, fun seed => ?_, Structural.equalWithin_settles h hpointer hty hne hdeep,
    Structural.hashWithin_settles h hpointer hty hne hdeep⟩
  · rw [equal_eq_leaves hbuilt hpointer hdistinct hmachine hty hne hp hp]
    exact Leaves.equalWithin_settles h hpointer hwithin
  · rw [hash_eq_leaves hbuilt hpointer hdistinct hmachine hty hne hp]
    exact Leaves.hashWithin_settles h hpointer hwithin seed

/-- What has been stored can be used, if pointers hold at most eight bytes, and all addresses as far
    as the value leads anywhere. -/
theorem usable_of_store (hbuilt : Built table) (hpointer : table.target.pointerSize.toNat ≤ 8)
    (hdistinct : table.TextsDistinct) (hmachine : Reachable table machine)
    (halgorithm : table.algorithm ty ≠ .noEquality) (hfaithful : value.Faithful table ty)
    (hstore : store ty value fill machine = (.ok p, after))
    (hlimit : value.leads = true → after.arena.stop < 256 ^ table.target.pointerSize.toNat) :
    after.Usable ty p := by
  have h := hbuilt.lawful
  have hne : table.base ty ≠ .noEquality := fun hbase =>
    halgorithm (algorithm_eq_noEquality_iff.2 hbase)
  obtain ⟨hstored, -⟩ := of_store_eq_ok hstore
  rw [(hmachine.sound hbuilt).1] at hstored
  -- The value lies at its address, so there is an image.
  obtain ⟨hty, hspans, hputs⟩ := Value.puts_store_of_leads h hpointer hfaithful hstored 0
  have hlies := hputs.holds after.arena (Nat.le_refl _) (fun _ _ => rfl) hlimit
  exact usable_of_image hbuilt hpointer hdistinct (hmachine.store hstore) hty hne
    (Value.image_of_liesAt h value hty hne hfaithful hspans.inBounds hlies)

end Machine

/-! ### Wide pointers -/

/-- Words are stored at any width, but not loaded beyond eight bytes. -/
theorem Arena.readWord_of_wide {width : Word} (hp : arena.inBounds p width.toNat = true)
    (hwidth : 8 < width.toNat) : arena.readWord p width = .error (.fault .range) := by
  have hlength := Arena.length_bytesAt hp
  have hread := Arena.read_eq hp rfl
  generalize arena.bytesAt p width.toNat = bytes at hlength hread
  rw [← hlength, ← Nat.not_le] at hwidth
  simp only [Arena.readWord, hread, bind, Except.bind, hwidth, if_false]
  rfl

namespace StoreM

variable {before : Arena}

theorem bind_eq {α β : Type} {action : StoreM α} {next : α → StoreM β} {a : α}
    {between : Arena} (h : action before = (.ok a, between)) :
    (action >>= next) before = next a between := by
  rw [bind_apply, h]

/-- Two words can be written where they lie, whatever their width. -/
theorem exists_writePair {width : Word} (hspans : before.Spans p (2 * width.toNat))
    (first second : Word) : ∃ after, writePair p width first second before = (.ok (), after) ∧
      after.stop = before.stop := by
  -- Of a wide word eight bytes are written, which are the first ones of its slot.
  have hlength : ∀ value, (Arena.lowBytes width value).length ≤ width.toNat := fun value => by
    rw [length_lowBytes_eq]
    exact Nat.min_le_left _ _
  have hstop : ∀ value, (before.put p (Arena.lowBytes width value)).stop = before.stop := fun _ =>
    Arena.stop_put _ _ _
  have hfirst : before.inBounds p (Arena.lowBytes width first).length = true :=
    Arena.inBounds_mono hspans.inBounds (by have hle := hlength first; omega)
  have hpart : before.Spans (p + width) width.toNat := (hspans.part (by omega)).2
  have hsecond := (hpart.mono (hlength second) (Nat.le_of_eq (hstop first).symm)).inBounds
  have hwrite : writeWord p width first before =
      (.ok (), before.put p (Arena.lowBytes width first)) := write_eq_ok_iff.2 ⟨hfirst, rfl⟩
  refine ⟨(before.put p (Arena.lowBytes width first)).put (p + width) (Arena.lowBytes width second),
    ?_, (Arena.stop_put _ _ _).trans (hstop first)⟩
  rw [writePair, bind_eq hwrite, Arena.add_eq_ok hspans.inBounds (by omega)]
  exact write_eq_ok_iff.2 ⟨hsecond, rfl⟩

end StoreM

/-- Of two powers of two, the next multiple of the one from the other on is the larger one. -/
theorem roundUpTo_le_max {a b : Nat} (ha : isPowerOfTwo a = true) (hb : isPowerOfTwo b = true) :
    roundUpTo a b ≤ max a b := by
  refine roundUpTo_le ?_ (Nat.le_max_right a b)
  rw [Nat.max_eq_left (pos_of_isPowerOfTwo ha)]
  rcases Nat.le_total a b with hle | hle
  · rw [Nat.max_eq_right hle]
    exact dvd_of_isPowerOfTwo_of_le ha hb hle
  · exact (Nat.max_eq_left hle).symm ▸ Nat.dvd_refl a

/-- There is memory for two pointers as wide as they may be. -/
theorem Arena.exists_room {size align : Word} (halign : isPowerOfTwo align.toNat = true)
    (hsize : size.toNat = 2 * align.toNat) :
    ∃ start stop, Arena.empty.room size align = .ok (start, stop) := by
  have hbase : isPowerOfTwo Arena.base = true := isPowerOfTwo_iff.2 ⟨12, rfl⟩
  have hround := roundUpTo_le_max halign hbase
  have hle : align.toNat ≤ 2 ^ 62 := by
    -- A power of two of which a word holds the double is far enough from the largest word.
    obtain ⟨k, hk⟩ := isPowerOfTwo_iff.1 halign
    have hlt : Nat.pow 2 (k + 1) < Nat.pow 2 64 := by
      rw [pow_two_succ, ← hk, ← hsize]
      exact size.toNat_lt
    have hexp : k + 1 < 64 := (Nat.pow_lt_pow_iff_right (by decide)).1 hlt
    rw [hk]
    exact Nat.pow_le_pow_right (by decide) (by omega)
  have hbound : roundUpTo align.toNat Arena.empty.stop + size.toNat < UInt64.size := by
    change roundUpTo align.toNat Arena.base + _ < 2 ^ 64
    rw [show Arena.base = 4096 from rfl] at hround ⊢
    omega
  obtain ⟨answer, halloc⟩ : ∃ answer, Arena.empty.alloc size align 0 = .ok answer :=
    Arena.alloc_isOk_iff.2 hbound
  obtain ⟨stop, hroom, _⟩ := StoreM.alloc_eq_ok_iff.1 (outcome_eq_ok_iff.1 halloc)
  exact ⟨answer.1, stop, hroom⟩

/-- Nil can be stored whatever the width of a pointer. -/
theorem Value.exists_store_nil (h : Lawful table) (hty : table.Has ty)
    (hkind : (table.kind ty).isInterface = true) (fill : UInt8) :
    ∃ p after, nil.store table fill ty .empty = (.ok p, after) ∧
      after.Spans p (2 * table.target.pointerSize.toNat) := by
  obtain ⟨e, hget⟩ := hty
  obtain ⟨hsize, halign⟩ := layout_pair h hget (.inr (kind_of_get hget ▸ hkind))
  have hpower : isPowerOfTwo e.align.toNat = true := halign ▸ isPowerOfTwo_pointerSize h.valid
  obtain ⟨start, stop, hroom⟩ := Arena.exists_room hpower (halign ▸ hsize)
  have halloc : StoreM.alloc e.size e.align fill .empty =
      (.ok start, Arena.empty.growTo stop fill) := StoreM.alloc_eq_ok_iff.2 ⟨stop, hroom, rfl⟩
  have hspans := StoreM.spans_alloc halloc
  rw [hsize] at hspans
  obtain ⟨after, hpair, hstop⟩ := StoreM.exists_writePair hspans 0 0
  refine ⟨start, after, ?_, hspans.mono (Nat.le_refl _) (Nat.le_of_eq hstop.symm)⟩
  rw [Value.store, hget]
  refine (StoreM.bind_eq (a := e) rfl).trans ((StoreM.bind_eq halloc).trans ?_)
  rw [write_nil, if_pos hkind]
  exact StoreM.bind_eq hpair

namespace Machine

/-- Interfaces with wide pointers cannot be used, not even nil. -/
theorem not_usable_of_wide {machine : Machine}
    (hpointer : 8 < machine.table.target.pointerSize.toNat) (hty : machine.table.Has ty)
    (hkind : (machine.table.kind ty).isInterface = true)
    (hspans : machine.arena.Spans p (2 * machine.table.target.pointerSize.toNat)) :
    ¬ machine.Usable ty p := by
  intro husable
  obtain ⟨e, hget⟩ := hty
  rw [kind_of_get hget] at hkind
  have hload : Primitives.loadPair machine.table machine.arena p = .error (.fault .range) := by
    rw [Primitives.loadPair, Primitives.loadWord,
      Arena.readWord_of_wide (Arena.inBounds_mono hspans.inBounds (by omega)) hpointer]
    rfl
  have hequal : (structuralEqual ty p p machine).1 = .error (.fault .range) := by
    rw [structuralEqual, ask, Structural.equal, Structural.equalWithin_of_pos Structural.callLimit_pos,
      Structural.equalVia_of_isInterface hget hkind, Leaf.equal, hload]
    rfl
  rcases husable.structuralEqual with ⟨_, hok⟩ | ⟨_, _, _, _, _, hpanic⟩
  · rw [hequal] at hok
    cases hok
  · rw [hequal] at hpanic
    cases hpanic

/-- With wide pointers, nil is stored by a new machine, but cannot be used. -/
theorem exists_not_usable (hbuilt : Built table) (hwide : 8 < table.target.pointerSize.toNat) :
    table.algorithm ⟨16⟩ ≠ .noEquality ∧ ∃ p after,
      store ⟨16⟩ .nil 0 (ofTable table) = (.ok p, after) ∧ ¬ after.Usable ⟨16⟩ p := by
  have h := hbuilt.lawful
  -- The interface without a name is one of the types that every table starts with.
  obtain ⟨e, he, hkind⟩ := hbuilt.kind_of_lt (i := 16) (by decide)
  have hget : table.get ⟨16⟩ = .ok e := get_eq_ok_iff.2 ⟨16, rfl, he⟩
  have hkind : e.kind = .any := (Option.some.inj hkind).symm
  have hinterface : (table.kind ⟨16⟩).isInterface = true := by rw [kind_of_get hget, hkind]; rfl
  obtain ⟨p, arena, hstore, hspans⟩ := Value.exists_store_nil h ⟨e, hget⟩ hinterface 0
  refine ⟨?_, p, ⟨table, .empty, arena⟩, ?_, not_usable_of_wide hwide ⟨e, hget⟩ hinterface hspans⟩
  · rw [Ne, algorithm_eq_noEquality_iff, base_of_get hget, (h.laidOut hget).base, hkind]
    nofun
  · simp only [store, ofTable, hstore]

/-- What is stored can be used exactly if pointers hold at most eight bytes. -/
theorem storesUsably_iff (hbuilt : Built table) (hdistinct : table.TextsDistinct) :
    StoresUsably table ↔ table.target.pointerSize.toNat ≤ 8 := by
  constructor
  · intro hstores
    by_contra hwide
    obtain ⟨halgorithm, p, after, hstore, hunusable⟩ :=
      exists_not_usable hbuilt (Nat.not_le.1 hwide)
    have hfaithful : Value.nil.Faithful table ⟨16⟩ := trivial
    exact hunusable (hstores _ _ _ _ _ _ .refl halgorithm hfaithful hstore nofun)
  · intro hpointer machine after ty value fill p hmachine halgorithm hfaithful hstore hlimit
    exact usable_of_store hbuilt hpointer hdistinct hmachine halgorithm hfaithful hstore hlimit

/-- A stored pair of a text and a number can be used. -/
theorem storesUsably_iff_pairs : ∃ after,
    store ⟨32⟩ (pairOf "ab" (.int (-1))) 0x11 (ofTable pairTable) = (.ok 4096, after) ∧
      after.Usable ⟨32⟩ 4096 := by
  have hstore : store ⟨32⟩ (pairOf "ab" (.int (-1))) 0x11 (ofTable pairTable) = (.ok 4096, _) :=
    Prod.ext (eq_ok_of_toOption (by decide +kernel)) rfl
  have hstores := (storesUsably_iff built_pairTable textsDistinct_pairTable).2 (by decide +kernel)
  exact ⟨_, hstore, hstores _ _ _ _ _ _ .refl (by decide +kernel) (faithful_pairOf _ rfl) hstore
    fun _ => by decide +kernel⟩

end Machine

end HashEq
