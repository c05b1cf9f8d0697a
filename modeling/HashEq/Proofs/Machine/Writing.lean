import HashEq.Machine.Value
import HashEq.Proofs.Bytes

/-!
# Writing to arenas

What is written goes to a slot that is there already, or to new memory at the end of
the arena. Everything else stays as it is, and so does what was written, as long as
neither its slot nor the memory that was new to it is written again.

* `Arena.byte?_put`, `Arena.byte?_growTo`: what becomes of a byte;
* `Arena.read_congr`: what is read depends on the bytes that are read;
* `Puts`: something is put into a slot and into new memory;
* `Puts.seq`, `Puts.fresh`: one thing after the other, and into new memory only;
* `StoreM.puts_writeWord`, `StoreM.puts_writePair`, `StoreM.puts_copy`: numbers, pairs of
  words, and bytes in memory of their own.
-/

namespace HashEq

namespace Arena

variable {arena other : Arena} {p start size align len word width : Word} {fill : UInt8}
  {data : List UInt8} {m n i : Nat}

/-- The address behind the last byte. -/
def stop (arena : Arena) : Nat :=
  base + arena.size

/-- The byte at an address. -/
def byte? (arena : Arena) (i : Nat) : Option UInt8 :=
  if base ≤ i then arena.bytes[i - base]? else none

/-- So many bytes from an address on lie in the arena. Of no bytes, the address does. -/
def Spans (arena : Arena) (p : Word) (n : Nat) : Prop :=
  base ≤ p.toNat ∧ p.toNat + n ≤ arena.stop

theorem Spans.inBounds (h : arena.Spans p n) : arena.inBounds p n = true :=
  inBounds_iff.2 (.inr h)

theorem Spans.mono (h : arena.Spans p n) (hm : m ≤ n) (hstop : arena.stop ≤ other.stop) :
    other.Spans p m :=
  ⟨h.1, by have hend := h.2; omega⟩

/-- A piece of a range that lies in the arena. -/
theorem Spans.part (h : arena.Spans p n) {offset : Word} (hm : offset.toNat + m ≤ n) :
    (p + offset).toNat = p.toNat + offset.toNat ∧ arena.Spans (p + offset) m := by
  have hadd := toNat_add h.inBounds (Nat.le_trans (Nat.le_add_right _ m) hm)
  obtain ⟨hbase, hend⟩ := h
  exact ⟨hadd, by omega, by omega⟩

theorem byte?_of_le (h : base ≤ i) : arena.byte? i = arena.bytes[i - base]? :=
  if_pos h

/-! ### Changes -/

theorem getElem?_overwrite (data : List UInt8) (bytes : Array UInt8) (start j : Nat)
    (h : start + data.length ≤ bytes.size) :
    (overwrite start data bytes)[j]? =
      if start ≤ j ∧ j < start + data.length then data[j - start]? else bytes[j]? := by
  induction data generalizing start bytes with
  | nil => rw [overwrite, if_neg (by rw [List.length_nil]; omega)]
  | cons byte data ih =>
    rw [List.length_cons] at h ⊢
    rw [overwrite, ih _ _ (by rw [Array.size_setIfInBounds]; omega), Array.getElem?_setIfInBounds]
    rcases Nat.lt_trichotomy j start with hlt | rfl | hlt
    · rw [if_neg (by omega), if_neg (by omega), if_neg (by omega)]
    · rw [if_neg (by omega), if_pos rfl, if_pos (by omega), if_pos (by omega), Nat.sub_self,
        List.getElem?_cons_zero]
    · have hsub : j - start = j - (start + 1) + 1 := by omega
      rw [if_neg (Nat.ne_of_lt hlt), hsub, List.getElem?_cons_succ]
      simp only [show start + 1 ≤ j ∧ j < start + 1 + data.length ↔
        start ≤ j ∧ j < start + (data.length + 1) by omega]

/-- Bytes that are put into an arena lie there, and no others have changed. -/
theorem byte?_put (h : arena.inBounds p data.length = true) (i : Nat) :
    (arena.put p data).byte? i =
      if p.toNat ≤ i ∧ i < p.toNat + data.length then data[i - p.toNat]? else arena.byte? i := by
  rcases inBounds_iff.1 h with hzero | ⟨hbase, hend⟩
  · rw [List.length_eq_zero_iff.1 hzero, if_neg (by rw [List.length_nil]; omega)]
    rfl
  · unfold byte? put
    unfold size at hend
    split
    · next hi =>
      rw [getElem?_overwrite _ _ _ _ (by omega)]
      have hsub : i - base - (p.toNat - base) = i - p.toNat := by omega
      simp only [hsub, show p.toNat - base ≤ i - base ∧
        i - base < p.toNat - base + data.length ↔ p.toNat ≤ i ∧ i < p.toNat + data.length by omega]
    · next hi => rw [if_neg (by omega)]

theorem stop_put (p : Word) (data : List UInt8) (arena : Arena) : (arena.put p data).stop = arena.stop :=
  congrArg (base + ·) (size_put p data arena)

/-- An arena that grows keeps its bytes. -/
theorem byte?_growTo (stop : Word) (fill : UInt8) (h : i < arena.stop) :
    (arena.growTo stop fill).byte? i = arena.byte? i := by
  unfold byte? growTo
  unfold Arena.stop size at h
  split
  · next hi => exact Array.getElem?_append_left (by omega)
  · rfl

/-- New memory starts behind the bytes that are there, and ends where the arena then does. -/
theorem of_room {stop : Word} (h : arena.room size align = .ok (start, stop)) :
    arena.stop ≤ start.toNat ∧ start.toNat + size.toNat = (arena.growTo stop fill).stop := by
  obtain ⟨start', hstart, h⟩ := bind_eq_ok_iff.1 h
  obtain ⟨stop', hstop, h⟩ := bind_eq_ok_iff.1 h
  cases h
  have hle := le_roundUpTo align.toNat (base + arena.size)
  have hsum := Word.toNat_of_add hstop
  rw [← Word.checked_eq_ok_iff.1 hstart] at hle
  refine ⟨hle, ?_⟩
  rw [Arena.stop, size_growTo]
  omega

/-! ### Reading again -/

/-- What is read depends on the bytes that are read. -/
theorem read_congr (h : arena.Spans p len.toNat) (hstop : arena.stop ≤ other.stop)
    (hbyte : ∀ i, p.toNat ≤ i → i < p.toNat + len.toNat → other.byte? i = arena.byte? i) :
    other.read p len = arena.read p len := by
  rw [read_eq h.inBounds rfl, read_eq (h.mono (Nat.le_refl _) hstop).inBounds rfl]
  refine congrArg Except.ok (bytesAt_congr fun d hd => ?_)
  have hd' := hbyte (p.toNat + d) (by omega) (by omega)
  have hbase := h.1
  rwa [byte?_of_le (by omega), byte?_of_le (by omega), Nat.sub_add_comm hbase] at hd'

theorem read_put (h : arena.inBounds p data.length = true) (hlen : len.toNat = data.length) :
    (arena.put p data).read p len = .ok data := by
  have hput : (arena.put p data).inBounds p data.length = true := by
    rwa [inBounds, size_put, ← inBounds]
  rw [read_eq hput hlen]
  refine congrArg Except.ok (List.ext_getElem? fun d => ?_)
  rw [getElem?_bytesAt]
  split
  · next hd =>
    have hbyte := byte?_put h (p.toNat + d)
    have hbase : base ≤ p.toNat := ((inBounds_iff.1 h).resolve_left (by omega)).1
    rwa [if_pos ⟨by omega, by omega⟩, byte?_of_le (by omega), Nat.sub_add_comm hbase,
      Nat.add_sub_cancel_left] at hbyte
  · next hd => exact (List.getElem?_eq_none (Nat.not_lt.1 hd)).symm

theorem lowBytes_eq (hwidth : width.toNat ≤ 8) : lowBytes width word = bytesOfWord width.toNat word := by
  rw [lowBytes, Nat.min_eq_left hwidth]

theorem length_lowBytes (hwidth : width.toNat ≤ 8) : (lowBytes width word).length = width.toNat := by
  rw [lowBytes_eq hwidth, length_bytesOfWord]

/-- The lowest bytes of numbers are the same exactly if the numbers are, modulo what the bytes
    can hold. -/
theorem lowBytes_eq_lowBytes_iff (hwidth : width.toNat ≤ 8) {a b : Word} :
    lowBytes width a = lowBytes width b ↔
      a.toNat % 256 ^ width.toNat = b.toNat % 256 ^ width.toNat := by
  have hbytes : ∀ c : Word, bytesOfWord width.toNat (wordOfBytes (bytesOfWord width.toNat c)) =
      bytesOfWord width.toNat c := by
    intro c
    have hround := @bytesOfWord_wordOfBytes (bytesOfWord width.toNat c)
    rw [length_bytesOfWord] at hround
    exact hround hwidth
  rw [lowBytes_eq hwidth, lowBytes_eq hwidth, ← toNat_wordOfBytes_bytesOfWord hwidth,
    ← toNat_wordOfBytes_bytesOfWord hwidth, UInt64.toNat_inj]
  constructor
  · exact fun heq => by rw [heq]
  · exact fun heq => by rw [← hbytes a, heq, hbytes b]

/-- A number that fits into the bytes it was cut to is read again. -/
theorem readWord_of_read (h : arena.read p width = .ok (lowBytes width word))
    (hwidth : width.toNat ≤ 8) (hword : word.toNat < 256 ^ width.toNat) :
    arena.readWord p width = .ok word := by
  have hround : wordOfBytes (bytesOfWord width.toNat word) = word := by
    rw [← UInt64.toNat_inj, toNat_wordOfBytes_bytesOfWord hwidth, Nat.mod_eq_of_lt hword]
  rw [readWord, h]
  change (if (lowBytes width word).length ≤ 8 then _ else _) = _
  rw [if_pos (by rwa [length_lowBytes hwidth]), lowBytes_eq hwidth, hround]
  rfl

end Arena

/-! ### Putting things into arenas -/

/-- From `before` to `after` something is put into the bytes from `lo` to `hi` and into new memory,
    and nothing else is changed. It can be told by a property, which stays true as long as none of
    these bytes are changed. -/
structure Puts (before after : Arena) (lo hi : Nat) (holds : Arena → Prop) : Prop where
  grows : before.stop ≤ after.stop
  frame : ∀ i < before.stop, i < lo ∨ hi ≤ i → after.byte? i = before.byte? i
  holds : ∀ later : Arena, after.stop ≤ later.stop →
    (∀ i, lo ≤ i ∧ i < hi ∨ before.stop ≤ i ∧ i < after.stop → later.byte? i = after.byte? i) →
    holds later

namespace Puts

variable {before between after : Arena} {lo mid hi lo' hi' : Nat} {first second : Arena → Prop}

theorem refl (arena : Arena) (lo hi : Nat) : Puts arena arena lo hi fun _ => True where
  grows := Nat.le_refl _
  frame _ _ _ := rfl
  holds _ _ _ := trivial

theorem imp (h : Puts before after lo hi first)
    (himp : ∀ later, after.stop ≤ later.stop → first later → second later) :
    Puts before after lo hi second :=
  { h with holds := fun later hstop hagree => himp later hstop (h.holds later hstop hagree) }

theorem widen (h : Puts before after lo hi first) (hlo : lo' ≤ lo) (hhi : hi ≤ hi') :
    Puts before after lo' hi' first where
  grows := h.grows
  frame i hi houtside := h.frame i hi (by omega)
  holds later hstop hagree := h.holds later hstop fun i hi => hagree i (by omega)

/-- What is put into one slot stays when something is put into the next one. -/
theorem seq (h₁ : Puts before between lo mid first) (h₂ : Puts between after mid hi second)
    (hlo : lo ≤ mid) (hmid : mid ≤ hi) (hhi : hi ≤ before.stop) :
    Puts before after lo hi fun later => first later ∧ second later where
  grows := Nat.le_trans h₁.grows h₂.grows
  frame i hi houtside := by
    have hgrows := h₁.grows
    rw [h₂.frame i (by omega) (by omega), h₁.frame i hi (by omega)]
  holds later hstop hagree := by
    have hgrows₁ := h₁.grows
    have hgrows₂ := h₂.grows
    refine ⟨h₁.holds later (Nat.le_trans hgrows₂ hstop) fun i hi => ?_,
      h₂.holds later hstop fun i hi => hagree i (by omega)⟩
    rw [hagree i (by omega), h₂.frame i (by omega) (by omega)]

/-- What is put into new memory changes nothing that was there. -/
theorem fresh (h : Puts between after lo hi first) (hgrows : before.stop ≤ between.stop)
    (hkept : ∀ i < before.stop, between.byte? i = before.byte? i) (hlo : before.stop ≤ lo)
    (hhi : hi ≤ between.stop) (slot : Nat) : Puts before after slot slot first where
  grows := Nat.le_trans hgrows h.grows
  frame i hi _ := by rw [h.frame i (by omega) (by omega), hkept i hi]
  holds later hstop hagree := by
    have hgrows' := h.grows
    exact h.holds later hstop fun i hi => hagree i (by omega)

end Puts

namespace StoreM

variable {α : Type} {before after : Arena} {p width first second : Word} {data : List UInt8}

/-- What does not depend on the arena leaves it as it is. -/
theorem of_lift_eq_ok {question : Except Fault α} {a : α}
    (h : (liftM question : StoreM α) before = (.ok a, after)) : question = .ok a ∧ before = after := by
  cases question with
  | error f => cases h
  | ok a' =>
    cases h
    exact ⟨rfl, rfl⟩

theorem puts_write (h : write p data before = (.ok (), after)) :
    Puts before after p.toNat (p.toNat + data.length) fun later =>
      ∀ len : Word, len.toNat = data.length → later.read p len = .ok data := by
  obtain ⟨hbounds, rfl⟩ := write_eq_ok_iff.1 h
  have hstop := Arena.stop_put p data before
  refine ⟨Nat.le_of_eq hstop.symm, fun i _ houtside => ?_, fun later hle hagree len hlen => ?_⟩
  · rw [Arena.byte?_put hbounds, if_neg (by omega)]
  · rcases Arena.inBounds_iff.1 hbounds with hzero | hspans
    · -- No bytes can be read anywhere.
      rw [List.length_eq_zero_iff.1 hzero] at hlen ⊢
      rw [Arena.read_eq (Arena.inBounds_zero later p) hlen, Arena.bytesAt_zero]
    · have hspans' : (before.put p data).Spans p len.toNat :=
        Arena.Spans.mono hspans (Nat.le_of_eq hlen) (Nat.le_of_eq hstop.symm)
      rw [Arena.read_congr hspans' hle fun i hlo hhi => hagree i (.inl ⟨hlo, by omega⟩),
        Arena.read_put hbounds hlen]

theorem puts_writeWord (hwidth : width.toNat ≤ 8)
    (h : writeWord p width first before = (.ok (), after)) :
    Puts before after p.toNat (p.toNat + width.toNat) fun later =>
      later.read p width = .ok (Arena.lowBytes width first) := by
  have hputs := puts_write h
  rw [Arena.length_lowBytes hwidth] at hputs
  exact hputs.imp fun later _ hread => hread width rfl

/-- Words that fit are read again. -/
theorem puts_writePair (hwidth : width.toNat ≤ 8) (hspans : before.Spans p (2 * width.toNat))
    (h : writePair p width first second before = (.ok (), after)) :
    Puts before after p.toNat (p.toNat + 2 * width.toNat) fun later =>
      (first.toNat < 256 ^ width.toNat → later.readWord p width = .ok first) ∧
        (second.toNat < 256 ^ width.toNat → later.readWord (p + width) width = .ok second) := by
  obtain ⟨_, between, hfirst, h⟩ := of_bind_eq_ok h
  obtain ⟨p', _, hadd, hsecond⟩ := of_bind_eq_ok h
  obtain ⟨hadd, rfl⟩ := of_lift_eq_ok hadd
  rw [Arena.add_eq_ok hspans.inBounds (by omega)] at hadd
  cases hadd
  have htoNat : (p + width).toNat = p.toNat + width.toNat :=
    Arena.toNat_add hspans.inBounds (by omega)
  have hfirst := puts_writeWord hwidth hfirst
  have hsecond := puts_writeWord hwidth hsecond
  rw [htoNat] at hsecond
  have hend := hspans.2
  have hpair := hfirst.seq hsecond (by omega) (by omega) (by omega)
  rw [Nat.add_assoc, ← Nat.two_mul] at hpair
  exact hpair.imp fun later _ hread =>
    ⟨Arena.readWord_of_read hread.1 hwidth, Arena.readWord_of_read hread.2 hwidth⟩

theorem of_alloc_eq_ok {size align start : Word} {fill : UInt8}
    (h : alloc size align fill before = (.ok start, after)) :
    before.stop ≤ start.toNat ∧ start.toNat + size.toNat = after.stop ∧
      ∀ i < before.stop, after.byte? i = before.byte? i := by
  obtain ⟨stop, hroom, rfl⟩ := alloc_eq_ok_iff.1 h
  obtain ⟨hstart, hstop⟩ := Arena.of_room hroom
  exact ⟨hstart, hstop, fun i hi => Arena.byte?_growTo _ _ hi⟩

theorem spans_alloc {size align start : Word} {fill : UInt8}
    (h : alloc size align fill before = (.ok start, after)) : after.Spans start size.toNat := by
  obtain ⟨hstart, hstop, _⟩ := of_alloc_eq_ok h
  exact ⟨Nat.le_trans (Nat.le_add_right _ _) hstart, Nat.le_of_eq hstop⟩

/-- What is put into new memory changes nothing that was there. -/
theorem puts_alloc {size align start : Word} {fill : UInt8} {between : Arena} {holds : Arena → Prop}
    (halloc : alloc size align fill before = (.ok start, between))
    (h : Puts between after start.toNat (start.toNat + size.toNat) holds) (slot : Nat) :
    Puts before after slot slot holds := by
  obtain ⟨hstart, hstop, hkept⟩ := of_alloc_eq_ok halloc
  exact h.fresh (by omega) hkept hstart (by omega) slot

/-- Bytes that get memory of their own. -/
theorem puts_copy {between : Arena} {start : Word} {fill : UInt8}
    (halloc : alloc (UInt64.ofNat data.length) 1 fill before = (.ok start, between))
    (h : write start data between = (.ok (), after)) (slot : Nat) :
    after.Spans start (UInt64.ofNat data.length).toNat ∧
      Puts before after slot slot fun later =>
        later.read start (UInt64.ofNat data.length) = .ok data := by
  have hlength : (UInt64.ofNat data.length).toNat = data.length := by
    have hlt := Arena.lt_of_inBounds (write_eq_ok_iff.1 h).1
    exact UInt64.toNat_ofNat_of_lt' (by omega)
  have hputs := (puts_write h).imp fun later _ hread => hread _ hlength
  exact ⟨(spans_alloc halloc).mono (Nat.le_refl _) hputs.grows,
    puts_alloc halloc (hputs.widen (Nat.le_refl _) (by omega)) slot⟩

end StoreM

end HashEq
