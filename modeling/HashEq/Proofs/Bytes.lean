import HashEq.Machine.Primitives
import Mathlib.Algebra.Group.Int.Defs
import Mathlib.Algebra.Group.Nat.Defs

/-!
# Bytes in an arena

What is read from an arena are the bytes that lie there. Bytes that lie in the
arena can be read in pieces, and comparing or hashing them piece by piece comes
to the same as doing it at once.

* `Arena.inBounds_add`: a piece of a range lies in the arena if the range does;
* `Arena.bytesAt_append`: the bytes of a range are those of its two pieces;
* `flatMap_beq_flatMap`, `blockHash_flatMap`: so comparing and hashing can be
  split;
* `Arena.bytesOfWord_wordOfBytes`, `Arena.toNat_wordOfBytes_bytesOfWord`: numbers and
  their bytes;
* `Primitives.memoryEqual_eq`, `Primitives.memoryHash_eq`: what the primitives for
  memory answer;
* `blockHash_ne`: one byte that differs makes the hashes differ.
-/

namespace HashEq

namespace Arena

/-- The `n` bytes from `p` on. -/
def bytesAt (arena : Arena) (p : Word) (n : Nat) : List UInt8 :=
  (arena.bytes.extract (p.toNat - base) (p.toNat - base + n)).toList

variable {arena : Arena} {p q : Word} {n a b : Nat}

theorem inBounds_iff :
    arena.inBounds p n = true ↔ n = 0 ∨ base ≤ p.toNat ∧ p.toNat + n ≤ base + arena.size := by
  simp only [inBounds, Bool.or_eq_true, beq_iff_eq, Bool.and_eq_true, decide_eq_true_iff]
  generalize base = start
  omega

theorem inBounds_zero (arena : Arena) (p : Word) : arena.inBounds p 0 = true :=
  inBounds_iff.2 (.inl rfl)

/-- Addresses within a range that lies in the arena do not wrap. -/
theorem toNat_add (h : arena.inBounds p n = true) {offset : Word} (ho : offset.toNat ≤ n) :
    (p + offset).toNat = p.toNat + offset.toNat := by
  rw [UInt64.toNat_add]
  apply Nat.mod_eq_of_lt
  rcases inBounds_iff.1 h with rfl | ⟨hbase, hsize⟩
  · have hp := p.toNat_lt
    omega
  · have haddressable := arena.addressable
    unfold size at hsize
    unfold UInt64.size at haddressable
    omega

theorem add_eq_ok (h : arena.inBounds p n = true) {offset : Word} (ho : offset.toNat ≤ n) :
    Word.add p offset = .ok (p + offset) := by
  rw [Word.add, Word.checked_eq_ok_iff, toNat_add h ho]

theorem inBounds_add (h : arena.inBounds p n = true) {offset : Word}
    (hm : offset.toNat + b ≤ n) : arena.inBounds (p + offset) b = true := by
  have hadd := toNat_add h (Nat.le_trans (Nat.le_add_right _ b) hm)
  rw [inBounds_iff] at h ⊢
  rcases h with rfl | ⟨hbase, hsize⟩
  · exact .inl (by omega)
  · exact .inr (by omega)

theorem inBounds_mono (h : arena.inBounds p n = true) (hb : b ≤ n) :
    arena.inBounds p b = true := by
  rw [inBounds_iff] at h ⊢
  rcases h with rfl | ⟨hbase, hsize⟩
  · exact .inl (by omega)
  · exact .inr (by omega)

/-- A range that lies in the arena ends before the addresses do. -/
theorem lt_of_inBounds (h : arena.inBounds p n = true) : n < UInt64.size - 1 := by
  have haddressable := arena.addressable
  have hbase : 1 ≤ base := by decide
  rcases inBounds_iff.1 h with rfl | ⟨_, hsize⟩
  · decide
  · unfold size at hsize
    generalize base = start at *
    omega

/-! ### Reading -/

theorem read_eq (h : arena.inBounds p n = true) {len : Word} (hn : len.toNat = n) :
    arena.read p len = .ok (arena.bytesAt p n) := by
  rw [read, hn, if_pos h, bytesAt]

/-- What can be read lies in the arena. -/
theorem of_read_eq_ok {len : Word} {bytes : List UInt8} (h : arena.read p len = .ok bytes) :
    arena.inBounds p len.toNat = true ∧ bytes = arena.bytesAt p len.toNat := by
  by_cases hbounds : arena.inBounds p len.toNat = true
  · rw [read_eq hbounds rfl] at h
    exact ⟨hbounds, (Except.ok.inj h).symm⟩
  · rw [read, if_neg hbounds] at h
    cases h

theorem length_bytesAt (h : arena.inBounds p n = true) : (arena.bytesAt p n).length = n := by
  rw [bytesAt, Array.length_toList, Array.size_extract]
  have hbounds := inBounds_iff.1 h
  unfold size at hbounds
  generalize base = start at *
  omega

theorem bytesAt_zero (arena : Arena) (p : Word) : arena.bytesAt p 0 = [] :=
  List.eq_nil_of_length_eq_zero (length_bytesAt (inBounds_zero arena p))

theorem bytesAt_append (h : arena.inBounds p (a + b) = true) {offset : Word}
    (ho : offset.toNat = a) :
    arena.bytesAt p (a + b) = arena.bytesAt p a ++ arena.bytesAt (p + offset) b := by
  have hadd : (p + offset).toNat = p.toNat + offset.toNat := toNat_add h (by omega)
  rcases inBounds_iff.1 h with hzero | ⟨hbase, hsize⟩
  · obtain ⟨rfl, rfl⟩ : a = 0 ∧ b = 0 := by omega
    rw [Nat.add_zero, bytesAt_zero, bytesAt_zero, List.append_nil]
  · have hstart : (p + offset).toNat - base = p.toNat - base + a := by
      rw [hadd, ho, Nat.sub_add_comm hbase]
    rw [bytesAt, bytesAt, bytesAt, hstart, ← Array.toList_append, Array.extract_append_extract,
      Nat.min_eq_left (Nat.le_add_right _ _), Nat.max_eq_right (Nat.le_add_right _ _),
      Nat.add_assoc]

theorem getElem?_bytesAt (arena : Arena) (p : Word) (n d : Nat) :
    (arena.bytesAt p n)[d]? = if d < n then arena.bytes[p.toNat - base + d]? else none := by
  rw [bytesAt, Array.getElem?_toList, Array.getElem?_extract]
  generalize base = start
  by_cases hsize : p.toNat - start + d < arena.bytes.size
  · have hiff : d < min (p.toNat - start + n) arena.bytes.size - (p.toNat - start) ↔ d < n := by
      omega
    simp only [hiff]
  · rw [Array.getElem?_eq_none (Nat.not_lt.1 hsize), ite_self, ite_self]

/-- Ranges whose bytes are the same one by one are the same. -/
theorem bytesAt_congr {other : Arena}
    (h : ∀ d < n, arena.bytes[p.toNat - base + d]? = other.bytes[p.toNat - base + d]?) :
    arena.bytesAt p n = other.bytesAt p n := by
  refine List.ext_getElem? fun d => ?_
  rw [getElem?_bytesAt, getElem?_bytesAt]
  split
  · next hd => exact h d hd
  · rfl

/-- The bytes of `k` neighbouring pieces of equal size. -/
theorem bytesAt_pieces {size : Word} (k : Nat) (h : arena.inBounds p (size.toNat * k) = true)
    (hk : k ≤ UInt64.size) :
    arena.bytesAt p (size.toNat * k) =
      (List.range' 0 k).flatMap fun i =>
        arena.bytesAt (p + UInt64.ofNat i * size) size.toNat := by
  induction k with
  | zero => exact bytesAt_zero arena p
  | succ k ih =>
    rw [Nat.mul_succ] at h ⊢
    have hoffset : (UInt64.ofNat k * size).toNat = size.toNat * k := by
      have hlt := lt_of_inBounds h
      rw [UInt64.toNat_mul, UInt64.toNat_ofNat_of_lt' hk, Nat.mul_comm k,
        Nat.mod_eq_of_lt (by unfold UInt64.size at hlt; omega)]
    rw [bytesAt_append h hoffset, ih (inBounds_mono h (Nat.le_add_right _ _)) (by omega),
      List.range'_concat, List.flatMap_append, List.flatMap_singleton, Nat.zero_add, Nat.one_mul]

/-! ### Numbers -/

theorem toNat_wordOfBytes_cons {byte : UInt8} {bytes : List UInt8}
    (h : (wordOfBytes bytes).toNat < 256 ^ 7) :
    (wordOfBytes (byte :: bytes)).toNat = byte.toNat + 256 * (wordOfBytes bytes).toNat := by
  have hbyte := byte.toNat_lt
  change (byte.toUInt64 + 256 * wordOfBytes bytes).toNat = _
  rw [UInt64.toNat_add, UInt64.toNat_mul, UInt8.toNat_toUInt64, show (256 : UInt64).toNat = 256 from rfl]
  omega

/-- Bytes stand for a number of so many bytes. -/
theorem toNat_wordOfBytes_lt {bytes : List UInt8} (h : bytes.length ≤ 8) :
    (wordOfBytes bytes).toNat < 256 ^ bytes.length := by
  induction bytes with
  | nil => decide
  | cons byte bytes ih =>
    have hlt := ih (Nat.le_of_succ_le h)
    have hpow : 256 ^ bytes.length ≤ 256 ^ 7 := Nat.pow_le_pow_right (by decide) (Nat.le_of_succ_le_succ h)
    have hbyte := byte.toNat_lt
    rw [toNat_wordOfBytes_cons (Nat.lt_of_lt_of_le hlt hpow), List.length_cons, Nat.pow_succ]
    omega

/-- The bytes of the number that bytes stand for are those bytes. -/
theorem bytesOfWord_wordOfBytes {bytes : List UInt8} (h : bytes.length ≤ 8) :
    bytesOfWord bytes.length (wordOfBytes bytes) = bytes := by
  induction bytes with
  | nil => rfl
  | cons byte bytes ih =>
    have hlt := toNat_wordOfBytes_lt (Nat.le_of_succ_le h)
    have hpow : 256 ^ bytes.length ≤ 256 ^ 7 := Nat.pow_le_pow_right (by decide) (Nat.le_of_succ_le_succ h)
    have hcons : (wordOfBytes (byte :: bytes)).toNat = byte.toNat + 256 * (wordOfBytes bytes).toNat :=
      toNat_wordOfBytes_cons (Nat.lt_of_lt_of_le hlt hpow)
    have hbyte := byte.toNat_lt
    have hlow : (wordOfBytes (byte :: bytes)).toUInt8 = byte := by
      rw [← UInt8.toNat_inj, UInt64.toNat_toUInt8, hcons]
      omega
    have hhigh : wordOfBytes (byte :: bytes) / 256 = wordOfBytes bytes := by
      rw [← UInt64.toNat_inj, UInt64.toNat_div, hcons, show (256 : UInt64).toNat = 256 from rfl]
      omega
    rw [List.length_cons, bytesOfWord, hlow, hhigh, ih (Nat.le_of_succ_le h)]

/-- Of a number, so many bytes are kept. -/
theorem toNat_wordOfBytes_bytesOfWord {count : Nat} (h : count ≤ 8) (word : Word) :
    (wordOfBytes (bytesOfWord count word)).toNat = word.toNat % 256 ^ count := by
  induction count generalizing word with
  | zero => exact (Nat.mod_one _).symm
  | succ count ih =>
    have hrest := ih (Nat.le_of_succ_le h) (word / 256)
    have hpow : 256 ^ count ≤ 256 ^ 7 := Nat.pow_le_pow_right (by decide) (Nat.le_of_succ_le_succ h)
    have hlt : word.toNat / 256 % 256 ^ count < 256 ^ count := Nat.mod_lt _ (Nat.pow_pos (by decide))
    rw [UInt64.toNat_div, show (256 : UInt64).toNat = 256 from rfl] at hrest
    have hsucc : 256 ^ (count + 1) = 256 * 256 ^ count := Nat.pow_succ'
    rw [bytesOfWord, toNat_wordOfBytes_cons (by omega), hrest, UInt64.toNat_toUInt8, hsucc,
      Nat.mod_mul]

end Arena

/-! ### Comparing and hashing -/

namespace Primitives

variable {arena : Arena} {p q size : Word} {n a b : Nat}

theorem memoryEqual_eq (hp : arena.inBounds p n = true) (hq : arena.inBounds q n = true)
    (hn : size.toNat = n) :
    memoryEqual arena p q size = .ok (arena.bytesAt p n == arena.bytesAt q n) := by
  rw [memoryEqual, Arena.read_eq hp hn, Arena.read_eq hq hn]
  rfl

theorem memoryHash_eq (hp : arena.inBounds p n = true) (hn : size.toNat = n) (h : Word) :
    memoryHash arena p size h = .ok (blockHash (arena.bytesAt p n) h) := by
  rw [memoryHash, Arena.read_eq hp hn]
  rfl

end Primitives

/-- Lists that are put together from pieces of the same lengths are equal when all pieces are. -/
theorem flatMap_eq_flatMap_iff {α β : Type} {l : List α} {f g : α → List β}
    (h : ∀ a ∈ l, (f a).length = (g a).length) :
    l.flatMap f = l.flatMap g ↔ ∀ a ∈ l, f a = g a := by
  induction l with
  | nil => simp
  | cons a l ih =>
    rw [List.flatMap_cons, List.flatMap_cons, List.forall_mem_cons,
      ← ih fun b hb => h b (List.mem_cons_of_mem a hb)]
    constructor
    · exact fun heq => List.append_inj heq (h a List.mem_cons_self)
    · rintro ⟨ha, hl⟩
      rw [ha, hl]

theorem flatMap_beq_flatMap {α : Type} {l : List α} {f g : α → List UInt8}
    (h : ∀ a ∈ l, (f a).length = (g a).length) :
    (l.flatMap f == l.flatMap g) = l.all fun a => f a == g a := by
  rw [Bool.eq_iff_iff, beq_iff_eq, flatMap_eq_flatMap_iff h, List.all_eq_true]
  simp only [beq_iff_eq]

theorem blockHash_flatMap {α : Type} (l : List α) (f : α → List UInt8) (seed : Word) :
    blockHash (l.flatMap f) seed = l.foldl (fun h a => blockHash (f a) h) seed := by
  induction l generalizing seed with
  | nil => rfl
  | cons a l ih => rw [List.flatMap_cons, blockHash_append, ih, List.foldl_cons]

/-! ### Different bytes -/

/-- What undoes a multiplication by the factor of the byte hash. -/
def hashPrimeInverse : Word := 0xCE965057AFF6957B

theorem mul_hashPrime_inj {a b : Word} (h : a * hashPrime = b * hashPrime) : a = b := by
  have hinverse : hashPrime * hashPrimeInverse = 1 := by decide
  have hcancel : ∀ c : Word, c * hashPrime * hashPrimeInverse = c := fun c => by
    rw [UInt64.mul_assoc, hinverse, UInt64.mul_one]
  rw [← hcancel a, h, hcancel]

theorem xor_left_inj {a b c : Word} (h : a ^^^ b = a ^^^ c) : b = c := by
  have hcancel : ∀ c : Word, a ^^^ (a ^^^ c) = c := fun c => by
    rw [← UInt64.xor_assoc, UInt64.xor_self, UInt64.zero_xor]
  rw [← hcancel b, h, hcancel]

theorem blockHash_cons (byte : UInt8) (bytes : List UInt8) (seed : Word) :
    blockHash (byte :: bytes) seed = blockHash bytes ((seed ^^^ byte.toUInt64) * hashPrime) :=
  List.foldl_cons ..

/-- Different states stay different when the same bytes are hashed. -/
theorem blockHash_inj {bytes : List UInt8} {a b : Word} (h : blockHash bytes a = blockHash bytes b) :
    a = b := by
  induction bytes generalizing a b with
  | nil => exact h
  | cons byte bytes ih =>
    rw [blockHash_cons, blockHash_cons] at h
    have hstep := mul_hashPrime_inj (ih h)
    rw [UInt64.xor_comm a, UInt64.xor_comm b] at hstep
    exact xor_left_inj hstep

/-- One byte that differs makes the hashes differ. -/
theorem blockHash_ne {before after : List UInt8} {x y : UInt8} (hne : x ≠ y) (seed : Word) :
    blockHash (before ++ x :: after) seed ≠ blockHash (before ++ y :: after) seed := by
  intro heq
  rw [blockHash_append, blockHash_append, blockHash_cons, blockHash_cons] at heq
  have hbyte := xor_left_inj (mul_hashPrime_inj (blockHash_inj heq))
  exact hne (by rw [← UInt8.toNat_inj, ← UInt8.toNat_toUInt64, hbyte, UInt8.toNat_toUInt64])

end HashEq
