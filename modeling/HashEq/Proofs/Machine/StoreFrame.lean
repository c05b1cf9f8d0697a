import HashEq.Proofs.Machine.Accesses
import HashEq.Proofs.Machine.AlignedPlaces
import HashEq.Proofs.Machine.StoredEquality
import HashEq.Proofs.Machine.TableChecks

/-!
# What storing a value leaves alone

A value is stored in new memory at the end of the arena, its strings and interfaces
in memory that is newer still, and writing starts only once the memory is there. So
whatever comes of it, in the middle of a list or at the end, no byte that was there
before has changed. Of the new bytes, those between the numbers that make up the
value are the ones that the memory was filled with.

* `Value.Covers`: the addresses that a value is written to, those of memory of its own
  left out;
* `StoreM.Within`: whatever comes of an action, bytes outside of given addresses stay as
  they are;
* `Value.within_write`: writing a value changes no bytes that are there but those that the
  value covers;
* `Value.covers_lt`: a value that was written lies in the slot of its type;
* `Machine.store_apart`: storing a value leaves everything alone that was there.
-/

namespace HashEq

open TypeTable

/-! ### Addresses that are written to -/

/-- The addresses of a number of `width` bytes at `p`, of which at most eight are written. -/
def WordCovers (p width i : Nat) : Prop :=
  p ≤ i ∧ i < p + min width 8

/-- The addresses of two such numbers. -/
def PairCovers (p width i : Nat) : Prop :=
  WordCovers p width i ∨ WordCovers (p + width) width i

namespace Value

section Definitions

variable (table : TypeTable) (i : Nat)

mutual

/-- A value of type `ty` at an address is written to the address `i`. What its strings and
    interfaces lead to is not part of it. -/
def Covers (ty : TypeId) (p : Nat) : Value → Prop
  | bytes data => p ≤ i ∧ i < p + data.length
  | bool _ | int _ | uint _ => WordCovers p (table.sizeOf ty).toNat i
  | float32 _ => WordCovers p 4 i
  | float64 _ => WordCovers p 8 i
  | complex64 _ _ => PairCovers p 4 i
  | complex128 _ _ => PairCovers p 8 i
  | string _ | nil | interface _ _ => PairCovers p table.target.pointerSize.toNat i
  | list values =>
    match table.kind ty with
    | .array elem _ => ElementsCover elem p 0 values
    | _ => FieldsCover p (table.fields ty) values

/-- The elements of an array, from position `k` on, are written to the address `i`. -/
def ElementsCover (elem : TypeId) (p k : Nat) : List Value → Prop
  | [] => False
  | value :: values =>
    Covers elem (p + k * (table.sizeOf elem).toNat) value ∨ ElementsCover elem p (k + 1) values

/-- The fields of a struct are written to the address `i`. -/
def FieldsCover (p : Nat) : List Field → List Value → Prop
  | field :: fields, value :: values =>
    Covers field.ty (p + field.offset.toNat) value ∨ FieldsCover p fields values
  | _, _ => False

end

end Definitions

end Value

/-! ### What stays as it is -/

/-- Memory grows, and of the bytes that were there those outside of `written` stay as they are. -/
structure Arena.Keeps (before after : Arena) (written : Nat → Prop) : Prop where
  grows : before.stop ≤ after.stop
  frame : ∀ i < before.stop, ¬written i → after.byte? i = before.byte? i

namespace Arena.Keeps

variable {before between after : Arena} {written written' : Nat → Prop}

theorem refl (arena : Arena) (written : Nat → Prop) : Keeps arena arena written :=
  ⟨Nat.le_refl _, fun _ _ _ => rfl⟩

theorem trans (h₁ : Keeps before between written) (h₂ : Keeps between after written) :
    Keeps before after written where
  grows := Nat.le_trans h₁.grows h₂.grows
  frame i hi hout := by
    rw [h₂.frame i (Nat.lt_of_lt_of_le hi h₁.grows) hout, h₁.frame i hi hout]

/-- Only the addresses of bytes that were there count. -/
theorem mono (h : Keeps before after written)
    (himp : ∀ i < before.stop, written i → written' i) : Keeps before after written' where
  grows := h.grows
  frame i hi hout := h.frame i hi fun hin => hout (himp i hi hin)

end Arena.Keeps

/-- Whatever comes of an action, no bytes that are there change outside of `written`. -/
def StoreM.Within {α : Type} (action : StoreM α) (written : Nat → Prop) : Prop :=
  ∀ before : Arena, before.Keeps (action before).2 written

namespace StoreM

variable {α β : Type} {action : StoreM α} {next : α → StoreM β} {written written' : Nat → Prop}
  {p width first second : Word}

theorem Within.mono (h : action.Within written) (himp : ∀ i, written i → written' i) :
    action.Within written' :=
  fun before => (h before).mono fun i _ => himp i

theorem within_pure (a : α) : (pure a : StoreM α).Within written :=
  fun before => .refl before written

theorem within_throw (e : EvalError) : (throw e : StoreM α).Within written :=
  fun before => .refl before written

theorem Within.bind (h : action.Within written) (hnext : ∀ a, (next a).Within written) :
    (action >>= next).Within written := by
  intro before
  rw [bind_apply]
  have haction := h before
  rcases hresult : action before with ⟨_ | a, between⟩ <;> rw [hresult] at haction
  · exact haction
  · exact haction.trans (hnext a between)

/-- What does not depend on the arena leaves it as it is. -/
theorem within_lift {question : Except Fault α} {next : α → StoreM β}
    (hnext : ∀ a, question = .ok a → (next a).Within written) :
    ((liftM question : StoreM α) >>= next).Within written := by
  intro before
  rcases question with _ | a
  · exact .refl before written
  · exact hnext a rfl before

/-- New memory may be written to, as it was not there before. -/
theorem within_alloc {size align : Word} {fill : UInt8} {next : Word → StoreM β}
    (hnext : ∀ start : Word, (next start).Within fun i => written i ∨ start.toNat ≤ i) :
    (alloc size align fill >>= next).Within written := by
  intro before
  rw [bind_apply]
  rcases halloc : alloc size align fill before with ⟨_ | start, between⟩
  · exact alloc_of_error halloc ▸ .refl before written
  · obtain ⟨hstart, hstop, hkept⟩ := of_alloc_eq_ok halloc
    have hgrows : before.Keeps between written := ⟨by omega, fun i hi _ => hkept i hi⟩
    have hrest := hnext start between
    refine ⟨Nat.le_trans hgrows.grows hrest.grows, fun i hi hout => ?_⟩
    refine (hrest.frame i (Nat.lt_of_lt_of_le hi hgrows.grows) ?_).trans (hkept i hi)
    rintro (hin | hin)
    · exact hout hin
    · omega

/-- New memory has the bytes that it is filled with. -/
theorem byte?_of_alloc {size align start : Word} {fill : UInt8} {before after : Arena} {i : Nat}
    (h : alloc size align fill before = (.ok start, after)) (hlo : before.stop ≤ i)
    (hhi : i < after.stop) : after.byte? i = some fill := by
  obtain ⟨stop, _, rfl⟩ := alloc_eq_ok_iff.1 h
  rw [Arena.byte?_growTo_of_le hlo, if_pos hhi]

theorem within_write (p : Word) (data : List UInt8) :
    (write p data).Within fun i => p.toNat ≤ i ∧ i < p.toNat + data.length := by
  intro before
  rcases hwrite : write p data before with ⟨_ | _, after⟩
  · exact write_of_error hwrite ▸ .refl before _
  · obtain ⟨hbounds, rfl⟩ := write_eq_ok_iff.1 hwrite
    refine ⟨Nat.le_of_eq (Arena.stop_put p data before).symm, fun i _ hout => ?_⟩
    rw [Arena.byte?_put hbounds, if_neg hout]

theorem length_lowBytes_eq (width value : Word) :
    (Arena.lowBytes width value).length = min width.toNat 8 :=
  Arena.length_bytesOfWord _ value

theorem within_writeWord (p width value : Word) :
    (writeWord p width value).Within (WordCovers p.toNat width.toNat) := by
  have hwithin := within_write p (Arena.lowBytes width value)
  rwa [length_lowBytes_eq] at hwithin

theorem within_writePair (p width first second : Word) :
    (writePair p width first second).Within (PairCovers p.toNat width.toNat) := by
  refine ((within_writeWord p width first).mono fun i => .inl).bind fun _ => within_lift ?_
  intro p' hadd
  refine (within_writeWord p' width second).mono fun i hi => .inr ?_
  rwa [Word.toNat_of_add hadd] at hi

end StoreM

namespace Value

variable {table : TypeTable} {fill : UInt8}

theorem within_mismatch (ty : TypeId) (written : Nat → Prop) :
    (mismatch table ty).Within written :=
  StoreM.within_lift fun _ _ => StoreM.within_throw _

/-- A value that its type does not have is not written at all. -/
theorem within_checked {ty : TypeId} {condition : Prop} [Decidable condition]
    {action : StoreM Unit} {written : Nat → Prop} (h : action.Within written) :
    (if condition then action else mismatch table ty).Within written := by
  split
  · exact h
  · exact within_mismatch ty written

mutual

/-- Values are written from their address on. -/
theorem le_of_covers {i : Nat} : ∀ (value : Value) {ty : TypeId} {p : Nat},
    value.Covers table i ty p → p ≤ i
  | bytes _, _, _, h | float32 _, _, _, h | float64 _, _, _, h => h.1
  | bool _, _, _, h | int _, _, _, h | uint _, _, _, h => h.1
  | complex64 _ _, _, _, h | complex128 _ _, _, _, h | string _, _, _, h | nil, _, _, h
  | interface _ _, _, _, h => by
    rcases h with h | h
    · exact h.1
    · exact Nat.le_trans (Nat.le_add_right _ _) h.1
  | list values, ty, p, h => by
    rw [Covers] at h
    split at h
    · exact le_of_elementsCover values h
    · exact le_of_fieldsCover values h

theorem le_of_elementsCover {i : Nat} : ∀ (values : List Value) {elem : TypeId} {p k : Nat},
    ElementsCover table i elem p k values → p ≤ i
  | [], _, _, _, h => h.elim
  | value :: values, _, _, _, h => by
    rcases h with h | h
    · exact Nat.le_trans (Nat.le_add_right _ _) (le_of_covers value h)
    · exact le_of_elementsCover values h

theorem le_of_fieldsCover {i : Nat} : ∀ (values : List Value) {fields : List Field} {p : Nat},
    FieldsCover table i p fields values → p ≤ i
  | [], [], _, h | [], _ :: _, _, h | _ :: _, [], _, h => h.elim
  | value :: values, _ :: _, _, h => by
    rcases h with h | h
    · exact Nat.le_trans (Nat.le_add_right _ _) (le_of_covers value h)
    · exact le_of_fieldsCover values h

end

mutual

/-- Writing a value, whether it succeeds or not, changes no bytes that are there but those that
    the value covers. -/
theorem within_write (value : Value) (ty : TypeId) (p : Word) :
    (write table fill p ty value).Within fun i => value.Covers table i ty p.toNat := by
  cases value with
  | bytes data => exact within_checked (StoreM.within_write p data)
  | bool value => exact within_checked (StoreM.within_writeWord p _ _)
  | int value => exact within_checked (StoreM.within_writeWord p _ _)
  | uint value => exact within_checked (StoreM.within_writeWord p _ _)
  | float32 bits => exact within_checked (StoreM.within_writeWord p 4 _)
  | float64 bits => exact within_checked (StoreM.within_writeWord p 8 _)
  | complex64 re im => exact within_checked (StoreM.within_writePair p 4 _ _)
  | complex128 re im => exact within_checked (StoreM.within_writePair p 8 _ _)
  | string text =>
    rw [write]
    -- The bytes of the text go to the new memory, and only the two words to the slot.
    refine within_checked (StoreM.within_alloc fun start => ?_)
    refine ((StoreM.within_write start _).mono fun i hi => .inr hi.1).bind fun _ => ?_
    exact (StoreM.within_writePair p _ start _).mono fun i => .inl
  | nil =>
    rw [write_nil]
    exact within_checked (StoreM.within_writePair p _ 0 0)
  | interface dynamic value =>
    rw [write_interface]
    refine within_checked (StoreM.within_lift fun e _ => StoreM.within_alloc fun data => ?_)
    -- The value goes to the new memory, and nothing of it comes before.
    have hvalue : (write table fill data dynamic value).Within fun i =>
        PairCovers p.toNat table.target.pointerSize.toNat i ∨ data.toNat ≤ i :=
      (within_write value dynamic data).mono fun i hi => .inr (le_of_covers value hi)
    exact hvalue.bind fun _ => (StoreM.within_writePair p _ _ data).mono fun i => .inl
  | list values =>
    rw [write]
    cases hkind : table.kind ty with
    | array elem len =>
      simp only [Covers, hkind]
      -- The length of an array is a word, so the positions of its elements do not wrap.
      split
      · next hlength =>
        have hlt := len.toNat_lt
        refine within_writeElements values elem p 0 ?_
        unfold UInt64.size
        omega
      · exact within_mismatch ty _
    | struct name members =>
      simp only [Covers, hkind]
      exact within_checked (within_writeFields values (table.fields ty) p)
    | _ => exact within_mismatch ty _

theorem within_writeElements (values : List Value) (elem : TypeId) (p : Word) (k : Nat)
    (hlength : k + values.length ≤ UInt64.size) :
    (writeElements table fill p elem k values).Within
      fun i => ElementsCover table i elem p.toNat k values := by
  cases values with
  | nil => exact StoreM.within_pure ()
  | cons value values =>
    rw [List.length_cons] at hlength
    rw [writeElements]
    refine StoreM.within_lift fun offset hoffset => StoreM.within_lift fun addr haddr => ?_
    have hk : addr.toNat = p.toNat + k * (table.sizeOf elem).toNat := by
      rw [Word.toNat_of_add haddr, Word.toNat_of_mul hoffset,
        UInt64.toNat_ofNat_of_lt' (by omega)]
    have hvalue := within_write value elem addr
    rw [hk] at hvalue
    have hvalues := within_writeElements values elem p (k + 1) (by omega)
    exact (hvalue.mono fun i => .inl).bind fun _ => hvalues.mono fun i => .inr

theorem within_writeFields (values : List Value) (fields : List Field) (p : Word) :
    (writeFields table fill p fields values).Within
      fun i => FieldsCover table i p.toNat fields values := by
  cases fields with
  | nil =>
    have hnil : writeFields table fill p [] values = pure () := by cases values <;> rfl
    rw [hnil]
    exact StoreM.within_pure ()
  | cons field fields =>
    cases values with
    | nil => exact StoreM.within_pure ()
    | cons value values =>
      rw [writeFields]
      refine StoreM.within_lift fun addr haddr => ?_
      have hvalue := within_write value field.ty addr
      rw [Word.toNat_of_add haddr] at hvalue
      have hvalues := within_writeFields values fields p
      exact (hvalue.mono fun i => .inl).bind fun _ => hvalues.mono fun i => .inr

end

/-! ### Slots -/

theorem keeps_of_write {ty : TypeId} {p : Word} {value : Value} {before after : Arena}
    {answer : Except EvalError Unit}
    (hwrite : write table fill p ty value before = (answer, after)) :
    before.Keeps after fun i => value.Covers table i ty p.toNat := by
  have hkeeps : before.Keeps (write table fill p ty value before).2 _ :=
    within_write value ty p before
  rwa [hwrite] at hkeeps

theorem pairCovers_lt {p width i n : Nat} (h : PairCovers p width i) (hn : n = 2 * width) :
    i < p + n := by
  rcases h with ⟨-, hlt⟩ | ⟨-, hlt⟩ <;> omega

mutual

/-- A value that was written lies in the slot of its type. -/
theorem covers_lt (h : Lawful table) {i : Nat} {ty : TypeId} {p : Word}
    {before after : Arena} (value : Value)
    (hty : table.Has ty) (hspans : before.Spans p (table.sizeOf ty).toNat)
    (hwrite : write table fill p ty value before = (.ok (), after))
    (hi : value.Covers table i ty p.toNat) : i < p.toNat + (table.sizeOf ty).toNat := by
  have hnumber : WordCovers p.toNat (table.sizeOf ty).toNat i →
      i < p.toNat + (table.sizeOf ty).toNat := by
    rintro ⟨-, hlt⟩
    omega
  cases value with
  | bool _ | int _ | uint _ => exact hnumber hi
  | bytes data =>
    obtain ⟨hlength, -⟩ := of_checked_eq_ok hwrite
    exact hlength ▸ hi.2
  | float32 bits =>
    obtain ⟨hkind, -⟩ := of_checked_eq_ok hwrite
    rw [h.sizeOf_of_layout hty (by rw [hkind]; rfl)]
    exact hi.2
  | float64 bits =>
    obtain ⟨hkind, -⟩ := of_checked_eq_ok hwrite
    rw [h.sizeOf_of_layout hty (by rw [hkind]; rfl)]
    exact hi.2
  | complex64 re im =>
    obtain ⟨hkind, -⟩ := of_checked_eq_ok hwrite
    rw [h.sizeOf_of_layout hty (by rw [hkind]; rfl)]
    exact pairCovers_lt hi rfl
  | complex128 re im =>
    obtain ⟨hkind, -⟩ := of_checked_eq_ok hwrite
    rw [h.sizeOf_of_layout hty (by rw [hkind]; rfl)]
    exact pairCovers_lt hi rfl
  | string text =>
    obtain ⟨hkind, -⟩ := of_checked_eq_ok hwrite
    exact pairCovers_lt hi (h.toNat_sizeOf_pair hty (.inl hkind))
  | nil =>
    rw [write_nil] at hwrite
    obtain ⟨hkind, -⟩ := of_checked_eq_ok hwrite
    exact pairCovers_lt hi (h.toNat_sizeOf_pair hty (.inr hkind))
  | interface dynamic value =>
    rw [write_interface] at hwrite
    obtain ⟨hkind, -⟩ := of_checked_eq_ok hwrite
    exact pairCovers_lt hi (h.toNat_sizeOf_pair hty (.inr hkind))
  | list values =>
    obtain ⟨e, hget⟩ := hty
    rw [sizeOf_of_get hget] at hspans ⊢
    rw [write, kind_of_get hget, fields_of_get hget] at hwrite
    simp only [Covers, kind_of_get hget, fields_of_get hget] at hi
    cases hkind : e.kind with
    | array elem len =>
      simp only [hkind] at hwrite hi
      obtain ⟨hlength, hwrite⟩ := of_checked_eq_ok hwrite
      exact elementsCover_lt h values hget hkind (by omega) hspans hwrite hi
    | struct name members =>
      simp only [hkind] at hwrite hi
      obtain ⟨hlength, hwrite⟩ := of_checked_eq_ok hwrite
      obtain ⟨stop, hplaced, hsize⟩ := h.placed hget hkind
      -- The fields end before the padding at the end of the struct.
      have hstop := le_roundUpTo e.align.toNat stop
      have hlt := fieldsCover_lt h values hplaced (fun field hf => h.field_has hget hf)
        (hspans.mono (by omega) (Nat.le_refl _)) hwrite hi
      omega
    | _ =>
      simp only [hkind] at hwrite
      exact (not_of_mismatch hwrite).elim

theorem elementsCover_lt (h : Lawful table) {i k : Nat} {ty elem : TypeId} {e : Entry}
    {len p : Word} {before after : Arena} (values : List Value) (hget : table.get ty = .ok e)
    (hkind : e.kind = .array elem len) (hlength : k + values.length = len.toNat)
    (hspans : before.Spans p e.size.toNat)
    (hwrite : writeElements table fill p elem k values before = (.ok (), after))
    (hi : ElementsCover table i elem p.toNat k values) : i < p.toNat + e.size.toNat := by
  cases values with
  | nil => exact hi.elim
  | cons value values =>
    rw [List.length_cons] at hlength
    have hk : k < len.toNat := by omega
    have hend := h.elem_end_le hget hkind (Arena.lt_of_inBounds hspans.inBounds) hk
    obtain ⟨between, htoNat, hpart, hfirst, hrest⟩ :=
      of_writeElements_cons h hget hkind hk hspans hwrite
    -- The address belongs to this element, or to one behind it.
    rcases hi with hi | hi
    · rw [← htoNat] at hi
      have hlt := covers_lt h value (h.elem_has hget hkind) hpart hfirst hi
      omega
    · have hspans := hspans.mono (Nat.le_refl _) (keeps_of_write hfirst).grows
      exact elementsCover_lt h values hget hkind (by omega) hspans hrest hi

theorem fieldsCover_lt (h : Lawful table) {i start stop : Nat} {p : Word} {before after : Arena}
    {fields : List Field} (values : List Value) (hplaced : table.Placed start fields stop)
    (hhas : ∀ field ∈ fields, table.Has field.ty) (hspans : before.Spans p stop)
    (hwrite : writeFields table fill p fields values before = (.ok (), after))
    (hi : FieldsCover table i p.toNat fields values) : i < p.toNat + stop := by
  cases fields with
  | nil => cases values <;> exact hi.elim
  | cons field fields =>
    cases values with
    | nil => exact hi.elim
    | cons value values =>
      have hend := hplaced.2.le
      obtain ⟨between, htoNat, hpart, hfirst, hrest⟩ := of_writeFields_cons hplaced hspans hwrite
      rcases hi with hi | hi
      · rw [← htoNat] at hi
        have hlt := covers_lt h value (hhas field List.mem_cons_self) hpart hfirst hi
        omega
      · have hspans := hspans.mono (Nat.le_refl _) (keeps_of_write hfirst).grows
        exact fieldsCover_lt h values hplaced.2
          (fun field hf => hhas field (List.mem_cons_of_mem _ hf)) hspans hrest hi

end

/-- Storing a value, whether it succeeds or not, changes no bytes that are there. -/
theorem keeps_store (value : Value) (ty : TypeId) :
    (store table fill ty value).Within fun _ => False := by
  refine StoreM.within_lift fun e _ => StoreM.within_alloc fun addr => ?_
  have hwrite : (write table fill addr ty value).Within fun i => False ∨ addr.toNat ≤ i :=
    (within_write value ty addr).mono fun i hi => .inr (le_of_covers value hi)
  exact hwrite.bind fun _ => StoreM.within_pure addr

/-- A value is stored in new memory, and keeps the bytes that the memory is filled with where it
    does not cover them. -/
theorem of_store_ok (h : Lawful table) {ty : TypeId} {p : Word} {value : Value}
    {before after : Arena} (hstore : store table fill ty value before = (.ok p, after)) :
    max (table.alignOf ty).toNat 1 ∣ p.toNat ∧
      (before.stop ≤ p.toNat ∧ p.toNat + (table.sizeOf ty).toNat ≤ after.stop) ∧
      (∀ i, value.Covers table i ty p.toNat →
        p.toNat ≤ i ∧ i < p.toNat + (table.sizeOf ty).toNat) ∧
      ∀ i, p.toNat ≤ i → i < p.toNat + (table.sizeOf ty).toNat →
        ¬value.Covers table i ty p.toNat → after.byte? i = some fill := by
  obtain ⟨e, _, hlift, hstore⟩ := of_bind_eq_ok hstore
  obtain ⟨hget, rfl⟩ := StoreM.of_lift_eq_ok hlift
  obtain ⟨addr, between, halloc, hstore⟩ := of_bind_eq_ok hstore
  obtain ⟨_, between', hwrite, hreturn⟩ := of_bind_eq_ok hstore
  cases hreturn
  rw [sizeOf_of_get hget, alignOf, entry_of_get hget]
  have hspans := StoreM.spans_alloc halloc
  have hkeeps := keeps_of_write hwrite
  obtain ⟨hstart, hstop, -⟩ := StoreM.of_alloc_eq_ok halloc
  refine ⟨StoreM.align_dvd_of_alloc halloc, ⟨hstart, by have := hkeeps.grows; omega⟩,
    fun i hi => ⟨le_of_covers value hi, ?_⟩, fun i hlo hhi hout => ?_⟩
  · have hlt := covers_lt h value ⟨e, hget⟩ (by rwa [sizeOf_of_get hget]) hwrite hi
    rwa [sizeOf_of_get hget] at hlt
  · rw [hkeeps.frame i (by omega) hout]
    exact StoreM.byte?_of_alloc halloc (by omega) (by omega)

end Value

/-! ### Storing on machines -/

namespace Machine

/-- What storing a value comes to, whatever the outcome: everything that was there is left alone,
    and what is new around the value is as it was filled. -/
structure StoresApart (ty : TypeId) (value : Value) (fill : UInt8) (before : Machine)
    (outcome : Except EvalError Word × Machine) : Prop where
  table : outcome.2.table = before.table
  session : outcome.2.session = before.session
  /-- Memory grows. -/
  grows : before.arena.stop ≤ outcome.2.arena.stop
  /-- All bytes that were there are as they were. -/
  kept : ∀ i < before.arena.stop, outcome.2.arena.byte? i = before.arena.byte? i
  /-- The value lies at an aligned address. -/
  aligned : ∀ p, outcome.1 = .ok p → max (before.table.alignOf ty).toNat 1 ∣ p.toNat
  /-- The value lies in memory that is new. -/
  fresh : ∀ p, outcome.1 = .ok p → before.arena.stop ≤ p.toNat ∧
    p.toNat + (before.table.sizeOf ty).toNat ≤ outcome.2.arena.stop
  /-- The value is written to its own slot. -/
  confined : ∀ p, outcome.1 = .ok p → ∀ i, value.Covers before.table i ty p.toNat →
    p.toNat ≤ i ∧ i < p.toNat + (before.table.sizeOf ty).toNat
  /-- What is not written to in its slot is as it was filled. -/
  filled : ∀ p, outcome.1 = .ok p → ∀ i, p.toNat ≤ i →
    i < p.toNat + (before.table.sizeOf ty).toNat → ¬value.Covers before.table i ty p.toNat →
      outcome.2.arena.byte? i = some fill

/-- Storing a value leaves everything alone that was there, whether it succeeds or fails. -/
theorem store_apart {machine : Machine} (hbuilt : Built machine.table) (ty : TypeId)
    (value : Value) (fill : UInt8) :
    StoresApart ty value fill machine (store ty value fill machine) := by
  obtain ⟨table, session, arena⟩ := machine
  have h := hbuilt.lawful
  have hkeeps : arena.Keeps (Value.store table fill ty value arena).2 fun _ => False :=
    Value.keeps_store value ty arena
  have hok : ∀ p, (Value.store table fill ty value arena).1 = .ok p →
      Value.store table fill ty value arena =
        (.ok p, (Value.store table fill ty value arena).2) :=
    fun p hp => Prod.ext hp rfl
  exact {
    table := rfl
    session := rfl
    grows := hkeeps.grows
    kept := fun i hi => hkeeps.frame i hi id
    aligned := fun p hp => (Value.of_store_ok h (hok p hp)).1
    fresh := fun p hp => (Value.of_store_ok h (hok p hp)).2.1
    confined := fun p hp => (Value.of_store_ok h (hok p hp)).2.2.1
    filled := fun p hp => (Value.of_store_ok h (hok p hp)).2.2.2 }

/-- A record of which the last field is given. -/
def recordOf (last : Value) : Value :=
  .list [.list [.uint 1, .uint 2], .list [.uint 3, .float64 0, .string "key"], last]

/-- Records are stored behind others. One is refused after its string has been copied, as its last
    field is no interface. -/
theorem store_apart_records :
    (store ⟨35⟩ (recordOf .nil) 0xEE recordMachine).1.toOption = some 4224 ∧
      StoresApart ⟨35⟩ (recordOf .nil) 0xEE recordMachine
        (store ⟨35⟩ (recordOf .nil) 0xEE recordMachine) ∧
      (store ⟨35⟩ (recordOf (.bool true)) 0xEE recordMachine).1.toOption = none ∧
      StoresApart ⟨35⟩ (recordOf (.bool true)) 0xEE recordMachine
        (store ⟨35⟩ (recordOf (.bool true)) 0xEE recordMachine) :=
  ⟨by decide +kernel, store_apart built_recordTable _ _ _, by decide +kernel,
    store_apart built_recordTable _ _ _⟩

end Machine

end HashEq
