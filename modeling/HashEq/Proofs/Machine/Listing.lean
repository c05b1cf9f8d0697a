import HashEq.Proofs.Machine.Atoms
import HashEq.Proofs.Machine.Consistency
import HashEq.Proofs.Machine.TableChecks

/-!
# Hashes depend on what is listed

A value can be listed: plain memory byte by byte, numbers by their bits, strings by
their bytes, interfaces by the type and the listing of what they hold, one after the
other in the order of fields and elements. Where fields end, how they are grouped and
named, and what is blank, does not show. Hashing takes the listing from front to back
and sees nothing else, so values of whatever types hash alike if they are listed alike.

* `Token`: what listings consist of;
* `listing`: the listing of a value;
* `Leaf.hash_eq_tokens`, `Structural.hashWithin_eq_listing`: hashing goes along the
  listing;
* `Machine.hash_eq_of_listing_eq`: values that are listed alike hash alike.
-/

namespace HashEq

open Session TypeTable

deriving instance DecidableEq for FloatFormat

/-- What listings consist of. The listing of what an interface holds stands between two marks. -/
inductive Token
  | byte (value : UInt8)
  | float (format : FloatFormat) (bits : Word)
  | complex (format : FloatFormat) (real imaginary : Word)
  | string (bytes : List UInt8)
  | nil
  /-- An interface with a value of a type without equality. -/
  | refused (word : Word)
  | opened (word : Word)
  | closed
  deriving DecidableEq

section Listing

variable (table : TypeTable) (arena : Arena)

/-- The listing of an interface by its two words. The value that it holds is listed by `inner`. -/
def interfaceTokens (inner : TypeId → Word → List Token) (word data : Word) : List Token :=
  if word = 0 then [.nil]
  else match typeOfWord word with
    | .ok dynamic =>
      if table.base dynamic = .noEquality then [.refused word]
      else .opened word :: inner dynamic data ++ [.closed]
    | .error _ => []

/-- The listing of a leaf. The values in interfaces are listed by `inner`. -/
def Leaf.tokens (inner : TypeId → Word → List Token) (p : Word) : Leaf → List Token
  | block size => (arena.bytesAt p size.toNat).map .byte
  | float format => [.float format (arena.wordAt p format.width)]
  | complex format =>
    [.complex format (arena.wordAt p format.width) (arena.wordAt (p + format.width) format.width)]
  | string =>
    let width := table.target.pointerSize
    [.string (arena.bytesAt (arena.wordAt p width) (arena.wordAt (p + width) width).toNat)]
  | interface =>
    let width := table.target.pointerSize
    interfaceTokens table inner (arena.wordAt p width) (arena.wordAt (p + width) width)

/-- The listing of a value of a type, in which interfaces nest less than `depth` deep. -/
def listingWithin : Nat → TypeId → Word → List Token
  | 0, _, _ => []
  | depth + 1, ty, p => (table.atoms ty).flatMap fun atom =>
      atom.2.tokens table arena (listingWithin depth) (p + atom.1)

/-- The listing of a value of a type. No image nests interfaces deeper (see `Image.within`). -/
def listing (ty : TypeId) (p : Word) : List Token :=
  listingWithin table arena (2 ^ 96) ty p

end Listing

/-- The hash of a floating-point number by its bits. The two zeros hash alike. -/
def FloatFormat.hashBits (format : FloatFormat) (bits h : Word) : Word :=
  if format.isZero bits then mixOut * (mixIn ^^^ h)
  else blockHash (Arena.bytesOfWord format.width.toNat bits) h

/-- Hashes a token, from the hash state `h` on. -/
def Token.hash (table : TypeTable) (h : Word) : Token → Except EvalError Word
  | byte value => .ok (blockHash [value] h)
  | float format bits => .ok (format.hashBits bits h)
  | complex format real imaginary => .ok (format.hashBits imaginary (format.hashBits real h))
  | string bytes => .ok (blockHash bytes h)
  | nil => .ok h
  | refused word => do throw (.unhashable (table.shape (← typeOfWord word)).text)
  | opened _ => .ok (h ^^^ mixIn)
  | closed => .ok (mixOut * h)

variable {table : TypeTable} {arena : Arena} {ty : TypeId} {p seed width : Word} {n : Nat}

/-! ### Numbers -/

theorem bytesOfWord_wordAt (hp : arena.inBounds p width.toNat = true) (hwidth : width.toNat ≤ 8) :
    Arena.bytesOfWord width.toNat (arena.wordAt p width) = arena.bytesAt p width.toNat := by
  have hlength := Arena.length_bytesAt hp
  rw [Arena.wordAt]
  generalize arena.bytesAt p width.toNat = bytes at hlength ⊢
  rw [← hlength] at hwidth ⊢
  exact Arena.bytesOfWord_wordOfBytes hwidth

/-- The hash of a number that has been read. -/
theorem floatHash_of_readWord {format : FloatFormat} {bits : Word}
    (hread : arena.readWord p format.width = .ok bits)
    (hbytes : arena.read p format.width = .ok (Arena.bytesOfWord format.width.toNat bits))
    (seed : Word) :
    Primitives.floatHash arena format p seed = .ok (format.hashBits bits seed) := by
  rw [Primitives.floatHash, hread, FloatFormat.hashBits]
  change (if format.isZero bits = true then _ else _) = _
  split
  · rfl
  · rw [Primitives.memoryHash, hbytes]
    rfl

theorem floatHash_eq_hashBits {format : FloatFormat} (hwidth : format.width.toNat ≤ 8)
    (hp : arena.inBounds p format.width.toNat = true) (seed : Word) :
    Primitives.floatHash arena format p seed =
      .ok (format.hashBits (arena.wordAt p format.width) seed) :=
  floatHash_of_readWord (readWord_eq_wordAt hp hwidth)
    (by rw [Arena.read_eq hp rfl, bytesOfWord_wordAt hp hwidth]) seed

/-- The hash of a string whose header has been read. -/
theorem stringHash_of_loadPair {data len : Word}
    (hload : Primitives.loadPair table arena p = .ok (data, len))
    (hbytes : arena.inBounds data len.toNat = true) (seed : Word) :
    Primitives.stringHash table arena p seed =
      .ok (blockHash (arena.bytesAt data len.toNat) seed) := by
  rw [Primitives.stringHash, hload]
  exact Primitives.memoryHash_eq hbytes rfl seed

/-! ### Leaves -/

/-- Hashing bytes one by one. -/
theorem foldlM_byte (bytes : List UInt8) (seed : Word) :
    (bytes.map Token.byte).foldlM (Token.hash table) seed = .ok (blockHash bytes seed) := by
  rw [List.foldlM_map]
  exact foldlM_eq_foldl (fun _ _ _ => rfl) seed

theorem foldlM_singleton (token : Token) (seed : Word) :
    [token].foldlM (Token.hash table) seed = token.hash table seed :=
  bind_pure _

/-- An interface is hashed as it is listed, if the value that it holds is. -/
theorem interface_hash_eq_tokens (h : Lawful table) {word data : Word}
    {dynamic : TypeId → Word → Word → Except EvalError Word} {inner : TypeId → Word → List Token}
    (hload : Primitives.loadPair table arena p = .ok (word, data))
    (htypes : word ≠ 0 → ∃ ty', typeOfWord word = .ok ty' ∧ table.Has ty')
    (hdynamic : ∀ ty', word ≠ 0 → typeOfWord word = .ok ty' → table.base ty' ≠ .noEquality →
      ∀ seed, dynamic ty' data seed = (inner ty' data).foldlM (Token.hash table) seed)
    (seed : Word) :
    Leaf.interface.hash table arena dynamic p seed =
      (interfaceTokens table inner word data).foldlM (Token.hash table) seed := by
  rw [Leaf.hash_interface hload, interfaceTokens]
  split
  · rw [foldlM_singleton, Token.hash]
  next hzero =>
  obtain ⟨ty', htold, hhas⟩ := htypes hzero
  rw [htold, dynamicType_eq h _ htold hhas]
  dsimp only
  split
  · rw [foldlM_singleton, Token.hash, htold]
    rfl
  next hne =>
  -- The marks around what is held do the mixing.
  rw [List.cons_append, List.foldlM_cons, Token.hash]
  change (dynamic ty' data (seed ^^^ mixIn) >>= _) =
    (inner ty' data ++ [Token.closed]).foldlM (Token.hash table) (seed ^^^ mixIn)
  rw [List.foldlM_append, hdynamic ty' hzero htold hne]
  refine bind_congr fun answer => ?_
  rw [foldlM_singleton, Token.hash]

/-- A leaf is hashed as it is listed, if values in interfaces are. -/
theorem Leaf.hash_eq_tokens (h : Lawful table) (hpointer : table.target.pointerSize.toNat ≤ 8)
    (hp : Readable table arena ty p) {offset : Word} {leaf : Leaf}
    (hmem : (offset, leaf) ∈ table.atoms ty)
    {dynamic : TypeId → Word → Word → Except EvalError Word} {inner : TypeId → Word → List Token}
    (hdynamic : ∀ ty' data, Holds table arena ty p ty' data → ∀ seed,
      dynamic ty' data seed = (inner ty' data).foldlM (Token.hash table) seed) (seed : Word) :
    leaf.hash table arena dynamic (p + offset) seed =
      (leaf.tokens table arena inner (p + offset)).foldlM (Token.hash table) seed := by
  have hfits := fits_of_mem_atoms h hp.bounds hmem
  cases leaf with
  | block size =>
    rw [Leaf.tokens, foldlM_byte]
    exact Primitives.memoryHash_eq hfits rfl seed
  | float format =>
    rw [Leaf.tokens, foldlM_singleton]
    exact floatHash_eq_hashBits hfits.1 hfits.2 seed
  | complex format =>
    obtain ⟨hwidth, hbounds⟩ := hfits
    -- Two numbers, the second one hashed with the state that the first one leaves.
    have himaginary : arena.inBounds (p + offset + format.width) format.width.toNat = true :=
      Arena.inBounds_add hbounds (by omega)
    rw [Leaf.tokens, foldlM_singleton, Leaf.hash, Primitives.complexHash,
      floatHash_eq_hashBits hwidth (Arena.inBounds_mono hbounds (by omega)),
      Arena.add_eq_ok hbounds (by omega)]
    exact floatHash_eq_hashBits hwidth himaginary _
  | string =>
    have hload := loadPair_eq_wordAt hpointer hfits
    have hleaf := (mem_atoms_iff h fun _ => Leaf.noConfusion).1 hmem
    rw [Leaf.tokens, foldlM_singleton]
    exact stringHash_of_loadPair hload (hp.strings hleaf hload) seed
  | interface =>
    have hload := loadPair_eq_wordAt hpointer hfits
    have hleaf := (mem_atoms_iff h fun _ => Leaf.noConfusion).1 hmem
    exact interface_hash_eq_tokens h hload (hp.interfaces hleaf hload) (fun ty' hzero htold hne =>
      hdynamic ty' _ ⟨offset, _, hleaf, hload, hzero, htold, hne⟩) seed

/-! ### Images -/

/-- Images are hashed as they are listed. -/
theorem Structural.hashWithin_eq_listing (h : Lawful table)
    (hpointer : table.target.pointerSize.toNat ≤ 8) (hty : table.Has ty)
    (hne : table.base ty ≠ .noEquality) (hp : ImageWithin table arena n ty p) (seed : Word) :
    hashWithin table arena n ty p seed =
      (listingWithin table arena n ty p).foldlM (Token.hash table) seed := by
  induction n generalizing ty p seed with
  | zero => exact hp.elim
  | succ n ih =>
    rw [hashWithin, hashVia_eq_atoms h hty hne hp.readable.bounds, listingWithin, foldlM_flatMap]
    refine foldlM_congr ?_ seed
    rintro state ⟨offset, leaf⟩ hmem
    refine Leaf.hash_eq_tokens h hpointer hp.readable hmem (fun ty' data hholds => ?_) state
    obtain ⟨inner, word, hleaf, hload, hzero, htold, hne'⟩ := hholds
    obtain ⟨ty'', htold', hhas⟩ := hp.readable.interfaces hleaf hload hzero
    rw [htold] at htold'
    cases htold'
    exact ih hhas hne' (hp.2 ty' data ⟨inner, word, hleaf, hload, hzero, htold, hne'⟩)

/-! ### Machines -/

namespace Machine

variable {machine machine' : Machine}

/-- Machines hash images as they are listed. -/
theorem hash_eq_listing (hbuilt : Built table) (hpointer : table.target.pointerSize.toNat ≤ 8)
    (hwhole : table.OpaqueWhole) (hdistinct : table.TextsDistinct)
    (hmachine : Reachable table machine) (hty : table.Has ty) (hne : table.base ty ≠ .noEquality)
    (hp : Image table machine.arena ty p) (seed : Word) :
    (hash ty p seed machine).1 =
      (listing table machine.arena ty p).foldlM (Token.hash table) seed := by
  have hwithin := hp.within placeNumber_lt
  rw [hash_eq_leaves hbuilt hpointer hdistinct hmachine hty hne hp, listing,
    ← Structural.hashWithin_eq_leaves hbuilt.lawful hwhole (Nat.le_refl _) hty hne hwithin]
  exact Structural.hashWithin_eq_listing hbuilt.lawful hpointer hty hne hwithin seed

/-- Values of any two types hash alike, from any state on, if they are listed alike. -/
theorem hash_eq_of_listing_eq (hbuilt : Built table)
    (hpointer : table.target.pointerSize.toNat ≤ 8) (hwhole : table.OpaqueWhole)
    (hdistinct : table.TextsDistinct) (hmachine : Reachable table machine)
    (hmachine' : Reachable table machine') {a b : TypeId} {q : Word} (ha : table.Has a)
    (hb : table.Has b) (haEquality : table.base a ≠ .noEquality)
    (hbEquality : table.base b ≠ .noEquality) (hp : Image table machine.arena a p)
    (hq : Image table machine'.arena b q)
    (hsame : listing table machine.arena a p = listing table machine'.arena b q) (seed : Word) :
    (hash a p seed machine).1 = (hash b q seed machine').1 := by
  rw [hash_eq_listing hbuilt hpointer hwhole hdistinct hmachine ha haEquality hp,
    hash_eq_listing hbuilt hpointer hwhole hdistinct hmachine' hb hbEquality hq, hsame]

/-- A flat record and a nested one with the same contents. -/
theorem hash_eq_of_listing_eq_records :
    (hash ⟨34⟩ 4096 7 recordMachine).1 = (hash ⟨35⟩ 4144 7 recordMachine).1 :=
  hash_eq_of_listing_eq built_recordTable (by decide +kernel) opaqueWhole_recordTable
    textsDistinct_recordTable reachable_recordMachine reachable_recordMachine (by decide +kernel)
    (by decide +kernel) (by decide +kernel) (by decide +kernel)
    (.of_within imageWithin_recordArena.1) (.of_within imageWithin_recordArena.2.1)
    (by decide +kernel) 7

end Machine

end HashEq
