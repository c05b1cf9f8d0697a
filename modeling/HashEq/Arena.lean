import HashEq.Action
import HashEq.Machine.EvalError

/-!
# Arenas

An arena is a piece of memory that only grows. Its first byte has the address
`Arena.base`, so that zero, and everything below, is the address of nothing.

* `Arena.read`, `Arena.readWord`: bytes and little-endian numbers out of an arena;
* `StoreM.alloc`: adds a piece at the end;
* `StoreM.write`, `StoreM.writeWord`: bytes and numbers into an arena;
* `Arena.alloc`, `Arena.write`, `Arena.writeWord`: what these answer, and the arena that they
  leave;
* `StoreM.alloc_of_error`, `StoreM.write_of_error`: what fails has changed nothing.
-/

namespace HashEq

/-- The address of the first byte. -/
def Arena.base : Nat := 4096

/-- Memory that only grows, as far as words can tell addresses. -/
structure Arena where
  bytes : Array UInt8
  /-- Every byte has an address, and so has the end. -/
  addressable : Arena.base + bytes.size < UInt64.size

namespace Arena

/-- The arena without any bytes. -/
def empty : Arena := ⟨#[], by decide⟩

/-- The number of bytes, gaps included. -/
def size (arena : Arena) : Nat :=
  arena.bytes.size

/-- Whether nothing was ever added. -/
def isEmpty (arena : Arena) : Bool :=
  arena.bytes.isEmpty

/-- Where `size` more bytes start and end, the start being a multiple of `align`. -/
def room (arena : Arena) (size align : Word) : Except Fault (Word × Word) := do
  let start ← Word.checked (roundUpTo align.toNat (base + arena.size))
  return (start, ← Word.add start size)

/-- Adds bytes, all of them `fill`, up to the address `stop`. -/
def growTo (stop : Word) (fill : UInt8) (arena : Arena) : Arena where
  bytes := arena.bytes ++ Array.replicate (stop.toNat - base - arena.size) fill
  addressable := by
    have hsize := arena.addressable
    have hstop := stop.toNat_lt_size
    rw [Array.size_append, Array.size_replicate, size]
    omega

/-- Whether `len` bytes from `addr` on lie in the arena; no bytes do anywhere. -/
def inBounds (arena : Arena) (addr : Word) (len : Nat) : Bool :=
  len == 0 || base ≤ addr.toNat && addr.toNat - base + len ≤ arena.size

/-- The `len` bytes from `addr` on. -/
def read (arena : Arena) (addr len : Word) : Except EvalError (List UInt8) :=
  if arena.inBounds addr len.toNat then
    .ok (arena.bytes.extract (addr.toNat - base) (addr.toNat - base + len.toNat)).toList
  else .error (.outOfBounds addr len)

/-- Puts bytes in place of those from position `i` on. -/
def overwrite (i : Nat) : List UInt8 → Array UInt8 → Array UInt8
  | [], bytes => bytes
  | byte :: data, bytes => overwrite (i + 1) data (bytes.setIfInBounds i byte)

theorem size_overwrite (i : Nat) (data : List UInt8) (bytes : Array UInt8) :
    (overwrite i data bytes).size = bytes.size := by
  induction data generalizing i bytes with
  | nil => rfl
  | cons byte data ih => rw [overwrite, ih, Array.size_setIfInBounds]

/-- Puts bytes in place of those from `addr` on, where all of them lie in the arena. -/
def put (addr : Word) (data : List UInt8) (arena : Arena) : Arena where
  bytes := overwrite (addr.toNat - base) data arena.bytes
  addressable := by rw [size_overwrite]; exact arena.addressable

/-- The number that bytes stand for, the lowest one first. -/
def wordOfBytes (bytes : List UInt8) : Word :=
  bytes.foldr (fun byte word => byte.toUInt64 + 256 * word) 0

/-- The `count` lowest bytes of a number, the lowest one first. -/
def bytesOfWord : Nat → Word → List UInt8
  | 0, _ => []
  | count + 1, word => word.toUInt8 :: bytesOfWord count (word / 256)

/-- The number in the `width` bytes from `addr` on, which must not be more than a word holds. -/
def readWord (arena : Arena) (addr width : Word) : Except EvalError Word := do
  -- The access comes first: bytes that are not there are out of bounds at any width.
  let bytes ← arena.read addr width
  if bytes.length ≤ 8 then return wordOfBytes bytes else throw (.fault .range)

/-- The lowest `width` bytes of a number, but at most the eight that it has. -/
def lowBytes (width value : Word) : List UInt8 :=
  bytesOfWord (min width.toNat 8) value

theorem size_growTo (arena : Arena) (stop : Word) (fill : UInt8) :
    (arena.growTo stop fill).size = max arena.size (stop.toNat - base) := by
  unfold growTo size
  rw [Array.size_append, Array.size_replicate]
  omega

/-- Writing changes bytes, but never how many there are. -/
theorem size_put (addr : Word) (data : List UInt8) (arena : Arena) :
    (arena.put addr data).size = arena.size :=
  size_overwrite _ data arena.bytes

theorem length_bytesOfWord (count : Nat) (word : Word) :
    (bytesOfWord count word).length = count := by
  induction count generalizing word with
  | zero => rfl
  | succ count ih => rw [bytesOfWord, List.length_cons, ih]

end Arena

/-- A change to an arena: what is changed before it fails stays. -/
abbrev StoreM := ExceptT EvalError (StateM Arena)

namespace StoreM

/-- Adds `size` bytes at the next multiple of `align`, all of them and the gap before set to
    `fill`. Answers their address. -/
def alloc (size align : Word) (fill : UInt8) : StoreM Word := do
  let arena ← get
  let (start, stop) ← arena.room size align
  set (arena.growTo stop fill)
  return start

/-- Puts bytes in place of those from `addr` on. -/
def write (addr : Word) (data : List UInt8) : StoreM Unit := do
  let arena ← get
  if arena.inBounds addr data.length then set (arena.put addr data)
  else throw (.outOfBounds addr (UInt64.ofNat data.length))

/-- Puts the lowest `width` bytes of a number in place of those from `addr` on. -/
def writeWord (addr width value : Word) : StoreM Unit :=
  write addr (Arena.lowBytes width value)

end StoreM

namespace Arena

/-- What adding bytes answers, with the arena that it leaves then. -/
def alloc (size align : Word) (fill : UInt8) (arena : Arena) : Except EvalError (Word × Arena) :=
  outcome (StoreM.alloc size align fill) arena

/-- The arena that writing bytes leaves. -/
def write (addr : Word) (data : List UInt8) (arena : Arena) : Except EvalError Arena :=
  (·.2) <$> outcome (StoreM.write addr data) arena

/-- The arena that writing a number leaves. -/
def writeWord (addr width value : Word) (arena : Arena) : Except EvalError Arena :=
  (·.2) <$> outcome (StoreM.writeWord addr width value) arena

end Arena

/-! ### What a change does -/

namespace StoreM

variable {size align start addr : Word} {fill : UInt8} {data : List UInt8} {arena later : Arena}
  {e : EvalError}

theorem alloc_apply (size align : Word) (fill : UInt8) (arena : Arena) :
    alloc size align fill arena = match arena.room size align with
      | .ok (start, stop) => (.ok start, arena.growTo stop fill)
      | .error f => (.error (.fault f), arena) := by
  rw [alloc, bind_apply]
  change (do
    let (start, stop) ← arena.room size align
    set (arena.growTo stop fill)
    return start : StoreM Word) arena = _
  rw [bind_apply]
  cases arena.room size align with
  | error f => rfl
  | ok room => rfl

theorem alloc_eq_ok_iff : alloc size align fill arena = (.ok start, later) ↔
    ∃ stop, arena.room size align = .ok (start, stop) ∧ later = arena.growTo stop fill := by
  rw [alloc_apply]
  rcases arena.room size align with f | ⟨start', stop⟩
  · exact iff_of_false nofun nofun
  · constructor
    · rintro ⟨⟩
      exact ⟨stop, rfl, rfl⟩
    · rintro ⟨_, ⟨⟩, rfl⟩
      rfl

/-- Where there is no room, nothing is added. -/
theorem alloc_of_error (h : alloc size align fill arena = (.error e, later)) : later = arena := by
  rw [alloc_apply] at h
  split at h <;> cases h
  rfl

theorem write_apply (addr : Word) (data : List UInt8) (arena : Arena) : write addr data arena =
    if arena.inBounds addr data.length then (.ok (), arena.put addr data)
    else (.error (.outOfBounds addr (UInt64.ofNat data.length)), arena) := by
  rw [write, get_bind]
  split <;> rfl

theorem write_eq_ok_iff : write addr data arena = (.ok (), later) ↔
    arena.inBounds addr data.length = true ∧ later = arena.put addr data := by
  rw [write_apply]
  split
  · next hbounds =>
    constructor
    · rintro ⟨⟩
      exact ⟨hbounds, rfl⟩
    · rintro ⟨_, rfl⟩
      rfl
  · next hbounds => exact iff_of_false nofun fun h => hbounds h.1

/-- What lies outside of the arena is not written, not even in part. -/
theorem write_of_error (h : write addr data arena = (.error e, later)) : later = arena := by
  rw [write_apply] at h
  split at h <;> cases h
  rfl

end StoreM

namespace Arena

variable {addr : Word} {data : List UInt8} {arena later : Arena}

theorem write_eq_ok_iff : arena.write addr data = .ok later ↔
    arena.inBounds addr data.length = true ∧ later = arena.put addr data := by
  rw [← StoreM.write_eq_ok_iff, ← outcome_eq_ok_iff, write]
  rcases outcome (StoreM.write addr data) arena with e | ⟨⟨⟩, later'⟩
  · exact iff_of_false nofun nofun
  · constructor <;> rintro ⟨⟩ <;> rfl

theorem writeWord_eq_ok_iff {width value : Word} : arena.writeWord addr width value = .ok later ↔
    arena.inBounds addr (lowBytes width value).length = true ∧
      later = arena.put addr (lowBytes width value) :=
  write_eq_ok_iff

end Arena

end HashEq
