import HashEq.Proofs.Machine.Writing

/-!
# Arenas as byte maps

An arena is a map from addresses to bytes that grows at its end. What is read are the
bytes that were written last, and where nothing was written yet, the fill byte of the
allocation that brought the byte into being. All this holds after any accesses, made in
any order, those that fail included.

* `Course.byte?`: the byte at an address, as the course of accesses tells it;
* `Faithful.step`: an access keeps the arena faithful to its course, and
  `faithful_ofAccesses`: so do any accesses;
* `accesses_map_bytes`: what accesses answer.
-/

namespace HashEq

/-- An access to an arena. -/
inductive Access
  | alloc (size align : Word) (fill : UInt8)
  | read (addr len : Word)
  | write (addr : Word) (data : List UInt8)
  | readWord (addr width : Word)
  | writeWord (addr width value : Word)

namespace Access

/-- What an access answers. -/
inductive Answer
  | address (addr : Word)
  | bytes (bytes : List UInt8)
  | word (value : Word)
  | done

/-- Makes an access. -/
def perform : Access → StoreM Answer
  | alloc size align fill => return .address (← StoreM.alloc size align fill)
  | read addr len => return .bytes (← (← get).read addr len)
  | write addr data => do
    StoreM.write addr data
    return .done
  | readWord addr width => return .word (← (← get).readWord addr width)
  | writeWord addr width value => do
    StoreM.writeWord addr width value
    return .done

/-- What an access answers, with the arena that it leaves then. -/
def run (arena : Arena) (access : Access) : Except EvalError (Answer × Arena) :=
  outcome access.perform arena

theorem perform_read (arena : Arena) (addr len : Word) :
    (read addr len).perform arena = (.bytes <$> arena.read addr len, arena) := by
  rw [perform, get_bind, bind_apply, liftM_apply]
  cases arena.read addr len <;> rfl

theorem perform_readWord (arena : Arena) (addr width : Word) :
    (readWord addr width).perform arena = (.word <$> arena.readWord addr width, arena) := by
  rw [perform, get_bind, bind_apply, liftM_apply]
  cases arena.readWord addr width <;> rfl

/-- An access that fails has changed nothing by then. -/
theorem perform_of_error {access : Access} {arena later : Arena} {e : EvalError}
    (h : access.perform arena = (.error e, later)) : later = arena := by
  cases access with
  | alloc size align fill =>
    obtain halloc | ⟨_, _, _, hreturn⟩ := of_bind_eq_error h
    · exact StoreM.alloc_of_error halloc
    · cases hreturn
  | read addr len =>
    rw [perform_read] at h
    exact (congrArg Prod.snd h).symm
  | readWord addr width =>
    rw [perform_readWord] at h
    exact (congrArg Prod.snd h).symm
  | write addr data =>
    obtain hwrite | ⟨_, _, _, hreturn⟩ := of_bind_eq_error h
    · exact StoreM.write_of_error hwrite
    · cases hreturn
  | writeWord addr width value =>
    obtain hwrite | ⟨_, _, _, hreturn⟩ := of_bind_eq_error h
    · exact StoreM.write_of_error hwrite
    · cases hreturn

/-- A change of what an arena holds. -/
inductive Change
  /-- The bytes from one address up to another came into being. -/
  | filled (start stop : Nat) (fill : UInt8)
  /-- Bytes were written from an address on. -/
  | written (start : Nat) (data : List UInt8)

namespace Change

/-- What a change wrote to an address. -/
def written? (i : Nat) : Change → Option UInt8
  | filled _ _ _ => none
  | written start data => if start ≤ i then data[i - start]? else none

/-- The byte with which a change brought an address into being. -/
def filled? (i : Nat) : Change → Option UInt8
  | filled start stop fill => if start ≤ i ∧ i < stop then some fill else none
  | written _ _ => none

end Change

/-- The change that an access made to an arena that ended at `stop`, as its answer tells it. -/
def change? (stop : Nat) : Access → Except EvalError Answer → Option Change
  | alloc size _ fill, .ok (.address addr) => some (.filled stop (addr.toNat + size.toNat) fill)
  | write addr data, .ok .done => some (.written addr.toNat data)
  | writeWord addr width value, .ok .done =>
    some (.written addr.toNat (Arena.lowBytes width value))
  | _, _ => none

end Access

/-- An arena with the changes that have made it, the latest first. -/
structure Course where
  arena : Arena
  changes : List Access.Change

namespace Course

/-- The course after one more access, with the arena that the access leaves. -/
def step (course : Course) (access : Access) : Course :=
  let (answer, later) := access.perform course.arena
  ⟨later, (access.change? course.arena.stop answer).toList ++ course.changes⟩

/-- A refused access leaves the course as it is. -/
theorem step_of_error {course : Course} {access : Access} {e : EvalError} {later : Arena}
    (h : access.perform course.arena = (.error e, later)) : course.step access = course := by
  rw [step, h, Access.perform_of_error h]
  cases access <;> rfl

/-- Reading leaves the course as it is. -/
theorem step_read (course : Course) (addr len : Word) : course.step (.read addr len) = course := by
  rw [step, Access.perform_read]
  rfl

theorem step_readWord (course : Course) (addr width : Word) :
    course.step (.readWord addr width) = course := by
  rw [step, Access.perform_readWord]
  rfl

/-- The course of some accesses to an arena that was empty. -/
def ofAccesses (accesses : List Access) : Course :=
  accesses.foldl step ⟨.empty, []⟩

/-- The byte at an address: what was written there last, or else the fill byte with which it came
    into being. -/
def byte? (course : Course) (i : Nat) : Option UInt8 :=
  (course.changes.findSome? (·.written? i)).or (course.changes.findSome? (·.filled? i))

end Course

namespace Arena

variable {arena later : Arena} {addr size align len width value : Word} {fill : UInt8}
  {data bytes : List UInt8} {i n : Nat}

/-! ### Single accesses -/

/-- New memory starts at an aligned address behind the bytes that are there. -/
theorem of_alloc_eq_ok (h : arena.alloc size align fill = .ok (addr, later)) :
    max align.toNat 1 ∣ addr.toNat ∧ arena.stop ≤ addr.toNat ∧
      later.stop = addr.toNat + size.toNat ∧ ∃ stop, later = arena.growTo stop fill := by
  obtain ⟨stop, hroom, rfl⟩ := StoreM.alloc_eq_ok_iff.1 (outcome_eq_ok_iff.1 h)
  obtain ⟨hle, hstop⟩ : arena.stop ≤ addr.toNat ∧
      addr.toNat + size.toNat = (arena.growTo stop fill).stop := of_room hroom
  obtain ⟨start', hstart, hroom⟩ := bind_eq_ok_iff.1 hroom
  obtain ⟨_, _, hroom⟩ := bind_eq_ok_iff.1 hroom
  cases hroom
  exact ⟨Word.checked_eq_ok_iff.1 hstart ▸ dvd_roundUpTo _ _, hle, hstop.symm, stop, rfl⟩

/-- Memory is allocated as long as words hold its addresses and the one behind it. -/
theorem alloc_isOk_iff : (∃ answer, arena.alloc size align fill = .ok answer) ↔
    roundUpTo align.toNat arena.stop + size.toNat < UInt64.size := by
  constructor
  · rintro ⟨⟨start, later⟩, h⟩
    obtain ⟨stop, hroom, _⟩ := StoreM.alloc_eq_ok_iff.1 (outcome_eq_ok_iff.1 h)
    obtain ⟨start', hstart, hroom⟩ := bind_eq_ok_iff.1 hroom
    obtain ⟨stop', hstop, _⟩ := bind_eq_ok_iff.1 hroom
    rw [Arena.stop, ← Word.checked_eq_ok_iff.1 hstart, ← Word.toNat_of_add hstop]
    exact stop'.toNat_lt
  · intro h
    have hstart : (UInt64.ofNat (roundUpTo align.toNat arena.stop)).toNat =
        roundUpTo align.toNat arena.stop := UInt64.toNat_ofNat_of_lt' (by omega)
    have hstop : (UInt64.ofNat (roundUpTo align.toNat arena.stop + size.toNat)).toNat =
        roundUpTo align.toNat arena.stop + size.toNat := UInt64.toNat_ofNat_of_lt' h
    have hroom : arena.room size align =
        .ok (UInt64.ofNat _, UInt64.ofNat _) :=
      bind_eq_ok_iff.2 ⟨_, Word.checked_eq_ok_iff.2 hstart,
        bind_eq_ok_iff.2 ⟨_, Word.checked_eq_ok_iff.2 (by rw [hstop, hstart]), rfl⟩⟩
    exact ⟨_, outcome_eq_ok_iff.2 (StoreM.alloc_eq_ok_iff.2 ⟨_, hroom, rfl⟩)⟩

theorem byte?_eq_none_iff : arena.byte? i = none ↔ i < base ∨ arena.stop ≤ i := by
  unfold byte? Arena.stop Arena.size
  split
  · rw [Array.getElem?_eq_none_iff]
    omega
  · simp only [true_iff]
    omega

/-- New bytes have the fill byte. -/
theorem byte?_growTo_of_le {stop : Word} (h : arena.stop ≤ i) :
    (arena.growTo stop fill).byte? i = if i < (arena.growTo stop fill).stop then some fill else none := by
  split
  · next hi =>
    unfold Arena.stop at h hi
    rw [size_growTo] at hi
    unfold Arena.size at h hi
    rw [byte?_of_le (by omega), growTo, Array.getElem?_append_right (by omega),
      Array.getElem?_replicate, if_pos (by unfold Arena.size; omega)]
  · next hi => exact byte?_eq_none_iff.2 (.inr (Nat.not_lt.1 hi))

/-- Reading a range that lies in the arena answers its bytes. -/
theorem read_of_inBounds (h : arena.inBounds addr len.toNat = true) :
    ∃ bytes, arena.read addr len = .ok bytes ∧
      bytes.map some = (List.range len.toNat).map fun k => arena.byte? (addr.toNat + k) := by
  refine ⟨_, read_eq h rfl, List.ext_getElem? fun k => ?_⟩
  rw [List.getElem?_map, List.getElem?_map, getElem?_bytesAt]
  split
  · next hk =>
    obtain ⟨hbase, hend⟩ := (inBounds_iff.1 h).resolve_left (by omega)
    rw [List.getElem?_range hk, Option.map_some, byte?_of_le (by omega), Nat.sub_add_comm hbase]
    unfold size at hend
    rw [Array.getElem?_eq_getElem (by omega)]
    rfl
  · next hk =>
    rw [List.getElem?_eq_none (by rw [List.length_range]; omega)]
    rfl

theorem stop_le_of_write (h : StoreM.write addr data arena = (.ok (), later)) :
    arena.stop ≤ later.stop := by
  obtain ⟨_, rfl⟩ := StoreM.write_eq_ok_iff.1 h
  exact Nat.le_of_eq (stop_put addr data arena).symm

/-- Bytes can be written where they can be read. -/
theorem write_isOk_iff : (∃ later, arena.write addr data = .ok later) ↔
    data = [] ∨ base ≤ addr.toNat ∧ addr.toNat + data.length ≤ base + arena.size := by
  rw [← List.length_eq_zero_iff, ← inBounds_iff]
  constructor
  · rintro ⟨later, hwrite⟩
    exact (write_eq_ok_iff.1 hwrite).1
  · intro hbounds
    exact ⟨_, write_eq_ok_iff.2 ⟨hbounds, rfl⟩⟩

/-- A number that was written is read again, as far as so many bytes hold it. -/
theorem readWord_of_writeWord (hwidth : width.toNat ≤ 8)
    (h : arena.writeWord addr width value = .ok later) :
    ∃ word, later.readWord addr width = .ok word ∧
      word.toNat = value.toNat % 2 ^ (8 * width.toNat) := by
  obtain ⟨hbounds, rfl⟩ := writeWord_eq_ok_iff.1 h
  have hmin : min width.toNat 8 = width.toNat := Nat.min_eq_left hwidth
  have hlength : (lowBytes width value).length = width.toNat := by
    rw [lowBytes, length_bytesOfWord, hmin]
  refine ⟨wordOfBytes (lowBytes width value), bind_eq_ok_iff.2
    ⟨_, read_put hbounds hlength.symm, if_pos (by omega)⟩, ?_⟩
  rw [lowBytes, hmin, toNat_wordOfBytes_bytesOfWord hwidth, Nat.pow_mul]

end Arena

/-! ### Courses of accesses -/

namespace Course

open Arena

variable {course : Course} {later : Arena} {addr size align : Word} {fill : UInt8}
  {data : List UInt8} {i : Nat} {access : Access}

/-- The course of accesses tells what lies in the arena. Nothing was written behind its end, so that
    new memory there holds fill bytes. -/
structure Faithful (course : Course) : Prop where
  bytes : ∀ i, course.byte? i = course.arena.byte? i
  written : ∀ i, course.arena.stop ≤ i → course.changes.findSome? (·.written? i) = none

theorem faithful_empty : Faithful ⟨.empty, []⟩ where
  bytes i := by
    unfold Arena.byte? Arena.empty
    simp [Course.byte?]
  written _ _ := rfl

theorem Faithful.filled (h : Faithful course)
    (halloc : StoreM.alloc size align fill course.arena = (.ok addr, later)) :
    Faithful ⟨later, .filled course.arena.stop (addr.toNat + size.toNat) fill :: course.changes⟩ := by
  obtain ⟨_, hle, hstop, stop, rfl⟩ := of_alloc_eq_ok (outcome_eq_ok_iff.2 halloc)
  refine ⟨fun i => ?_, fun i hi => h.written i ?_⟩
  · have hbyte := h.bytes i
    rw [Course.byte?] at hbyte ⊢
    rw [List.findSome?_cons, List.findSome?_cons, Access.Change.written?, Access.Change.filled?]
    rcases Nat.lt_or_ge i course.arena.stop with hlt | hge
    · rw [if_neg (by omega), byte?_growTo stop fill hlt]
      exact hbyte
    · -- Here nothing was written, and nothing was filled before.
      rw [byte?_eq_none_iff.2 (.inr hge), h.written i hge, Option.none_or] at hbyte
      rw [byte?_growTo_of_le hge, hstop, h.written i hge, hbyte, Option.none_or]
      by_cases hlt : i < addr.toNat + size.toNat
      · rw [if_pos ⟨hge, hlt⟩, if_pos hlt]
      · rw [if_neg fun hin => hlt hin.2, if_neg hlt]
  · have hi : (course.arena.growTo stop fill).stop ≤ i := hi
    omega

theorem Faithful.written_cons (h : Faithful course)
    (hwrite : StoreM.write addr data course.arena = (.ok (), later)) :
    Faithful ⟨later, .written addr.toNat data :: course.changes⟩ := by
  obtain ⟨hbounds, rfl⟩ := StoreM.write_eq_ok_iff.1 hwrite
  refine ⟨fun i => ?_, fun i hi => ?_⟩
  · rw [byte?_put hbounds, ← h.bytes i, Course.byte?, Course.byte?, List.findSome?_cons,
      List.findSome?_cons, Access.Change.written?, Access.Change.filled?]
    by_cases hi : addr.toNat ≤ i ∧ i < addr.toNat + data.length
    · rw [if_pos hi, if_pos hi.1, List.getElem?_eq_getElem (by omega)]
      rfl
    · rw [if_neg hi]
      by_cases hle : addr.toNat ≤ i
      · rw [if_pos hle, List.getElem?_eq_none (by omega)]
      · rw [if_neg hle]
  · have hi : course.arena.stop ≤ i := (stop_put addr data course.arena) ▸ hi
    rw [List.findSome?_cons, Access.Change.written?, h.written i hi]
    by_cases hle : addr.toNat ≤ i
    · -- Bytes that were written lie before the end.
      have hend : addr.toNat + data.length ≤ i := by
        rcases inBounds_iff.1 hbounds with hzero | ⟨_, hend⟩
        · omega
        · exact Nat.le_trans hend hi
      rw [if_pos hle, List.getElem?_eq_none (by omega)]
    · rw [if_neg hle]

/-- An access keeps the course faithful, and the arena at least as long. -/
theorem Faithful.step (h : Faithful course) (access : Access) :
    Faithful (course.step access) ∧ course.arena.stop ≤ (course.step access).arena.stop := by
  rcases hperform : access.perform course.arena with ⟨e | answer, later⟩
  · rw [step_of_error hperform]
    exact ⟨h, Nat.le_refl _⟩
  cases access with
  | read addr len =>
    rw [step_read]
    exact ⟨h, Nat.le_refl _⟩
  | readWord addr width =>
    rw [step_readWord]
    exact ⟨h, Nat.le_refl _⟩
  | alloc size align fill =>
    rw [Course.step, hperform]
    obtain ⟨addr, _, halloc, hreturn⟩ := of_bind_eq_ok hperform
    cases hreturn
    obtain ⟨_, hle, hstop, _⟩ := of_alloc_eq_ok (outcome_eq_ok_iff.2 halloc)
    exact ⟨h.filled halloc, by change course.arena.stop ≤ later.stop; omega⟩
  | write addr data =>
    rw [Course.step, hperform]
    obtain ⟨_, _, hwrite, hreturn⟩ := of_bind_eq_ok hperform
    cases hreturn
    exact ⟨h.written_cons hwrite, stop_le_of_write hwrite⟩
  | writeWord addr width value =>
    rw [Course.step, hperform]
    obtain ⟨_, _, hwrite, hreturn⟩ := of_bind_eq_ok hperform
    cases hreturn
    exact ⟨h.written_cons hwrite, stop_le_of_write hwrite⟩

theorem Faithful.foldl (h : Faithful course) (accesses : List Access) :
    Faithful (accesses.foldl Course.step course) ∧
      course.arena.stop ≤ (accesses.foldl Course.step course).arena.stop := by
  induction accesses generalizing course with
  | nil => exact ⟨h, Nat.le_refl _⟩
  | cons access accesses ih =>
    obtain ⟨hstep, hle⟩ := h.step access
    obtain ⟨hrest, hle'⟩ := ih hstep
    exact ⟨hrest, Nat.le_trans hle hle'⟩

theorem faithful_ofAccesses (accesses : List Access) : Faithful (ofAccesses accesses) :=
  (faithful_empty.foldl accesses).1

theorem ofAccesses_concat (accesses : List Access) (access : Access) :
    ofAccesses (accesses ++ [access]) = (ofAccesses accesses).step access := by
  rw [ofAccesses, List.foldl_append, List.foldl_cons, List.foldl_nil, ← ofAccesses]

/-- Memory that was allocated stays in the arena. -/
theorem end_le_stop {before : List Access} {earlier : Arena}
    (halloc : (ofAccesses before).arena.alloc size align fill = .ok (addr, earlier))
    (between : List Access) : addr.toNat + size.toNat ≤
      (ofAccesses (before ++ .alloc size align fill :: between)).arena.stop := by
  have hperform : (Access.alloc size align fill).perform (ofAccesses before).arena =
      (.ok (.address addr), earlier) := by
    rw [Access.perform, bind_apply, outcome_eq_ok_iff.1 halloc]
    rfl
  have hstep := (faithful_ofAccesses before).step (.alloc size align fill)
  have harena : ((ofAccesses before).step (.alloc size align fill)).arena = earlier := by
    rw [Course.step, hperform]
  have hle := (hstep.1.foldl between).2
  obtain ⟨_, _, hstop, _⟩ := of_alloc_eq_ok halloc
  rw [harena, hstop] at hle
  rw [ofAccesses, List.foldl_append, List.foldl_cons, ← ofAccesses]
  exact hle

/-- What an arena answers after some accesses. -/
structure MapsBytes (accesses : List Access) : Prop where
  /-- Memory is allocated as long as words hold its addresses and the one behind it. -/
  room : ∀ size align fill, (∃ answer, (ofAccesses accesses).arena.alloc size align fill = .ok answer) ↔
    roundUpTo align.toNat (ofAccesses accesses).arena.stop + size.toNat < UInt64.size
  /-- New memory starts at an aligned address, from the base address and the end of the arena on,
      and the arena then ends with it. -/
  alloc : ∀ size align fill addr later,
    (ofAccesses accesses).arena.alloc size align fill = .ok (addr, later) →
    max align.toNat 1 ∣ addr.toNat ∧ base ≤ addr.toNat ∧
      (ofAccesses accesses).arena.stop ≤ addr.toNat ∧ later.stop = addr.toNat + size.toNat
  /-- So it shares no byte with memory that was allocated before. -/
  apart : ∀ before between size align fill addr earlier,
    accesses = before ++ .alloc size align fill :: between →
    (ofAccesses before).arena.alloc size align fill = .ok (addr, earlier) →
    ∀ size' align' fill' addr' later,
      (ofAccesses accesses).arena.alloc size' align' fill' = .ok (addr', later) →
      ∀ i, addr.toNat ≤ i ∧ i < addr.toNat + size.toNat →
        ¬(addr'.toNat ≤ i ∧ i < addr'.toNat + size'.toNat)
  /-- No bytes can be read anywhere, and others where they lie in the arena. What is read was
      written last, or is the fill byte. -/
  read : ∀ addr len : Word,
    len = 0 ∨ base ≤ addr.toNat ∧ addr.toNat + len.toNat ≤ base + (ofAccesses accesses).arena.size →
    ∃ bytes, (ofAccesses accesses).arena.read addr len = .ok bytes ∧
      bytes.map some = (List.range len.toNat).map fun k => (ofAccesses accesses).byte? (addr.toNat + k)
  unreadable : ∀ addr len : Word,
    ¬(len = 0 ∨ base ≤ addr.toNat ∧
      addr.toNat + len.toNat ≤ base + (ofAccesses accesses).arena.size) →
    (ofAccesses accesses).arena.read addr len = .error (.outOfBounds addr len)
  /-- Bytes can be written where they can be read. -/
  write : ∀ addr data,
    (∃ later, (ofAccesses accesses).arena.write addr data = .ok later) ↔
      data = [] ∨ base ≤ addr.toNat ∧
        addr.toNat + data.length ≤ base + (ofAccesses accesses).arena.size
  /-- An access that fails changes nothing. -/
  unchanged : ∀ access error, access.run (ofAccesses accesses).arena = .error error →
    ofAccesses (accesses ++ [access]) = ofAccesses accesses
  /-- A number that was written is read again, as far as so many bytes hold it. -/
  word : ∀ addr width value later, width.toNat ≤ 8 →
    (ofAccesses accesses).arena.writeWord addr width value = .ok later →
    ∃ word, later.readWord addr width = .ok word ∧
      word.toNat = value.toNat % 2 ^ (8 * width.toNat)

/-- After any accesses an arena is a map of addresses to bytes. -/
theorem accesses_map_bytes (accesses : List Access) : MapsBytes accesses := by
  have h := faithful_ofAccesses accesses
  have hzero : ∀ len : Word, len.toNat = 0 ↔ len = 0 := fun len => by
    rw [← UInt64.toNat_inj, UInt64.toNat_zero]
  refine {
    room := fun size align fill => alloc_isOk_iff
    alloc := fun size align fill addr later halloc => ?_
    apart := fun before between size align fill addr earlier heq hbefore size' align' fill' addr' later
      halloc i hi hi' => ?_
    read := fun addr len hrange => ?_
    unreadable := fun addr len hrange => ?_
    write := fun addr data => write_isOk_iff
    unchanged := fun access error herror => ?_
    word := fun addr width value later hwidth hwrite => readWord_of_writeWord hwidth hwrite }
  · -- alloc
    obtain ⟨hdvd, hle, hstop, _⟩ := of_alloc_eq_ok halloc
    exact ⟨hdvd, Nat.le_trans (Nat.le_add_right base _) hle, hle, hstop⟩
  · -- apart
    have hend : addr.toNat + size.toNat ≤ (ofAccesses accesses).arena.stop :=
      heq ▸ end_le_stop hbefore between
    obtain ⟨_, hle, _⟩ := of_alloc_eq_ok halloc
    omega
  · -- read
    rw [← hzero] at hrange
    obtain ⟨bytes, hread, hbytes⟩ := read_of_inBounds (inBounds_iff.2 hrange)
    refine ⟨bytes, hread, hbytes.trans (List.map_congr_left fun k _ => ?_)⟩
    exact (h.bytes _).symm
  · -- unreadable
    rw [Arena.read, if_neg fun hbounds => hrange ?_]
    rw [← hzero]
    exact inBounds_iff.1 hbounds
  · -- unchanged
    obtain ⟨later, hperform⟩ := outcome_eq_error_iff.1 herror
    rw [ofAccesses_concat, step_of_error hperform]

end Course

end HashEq
