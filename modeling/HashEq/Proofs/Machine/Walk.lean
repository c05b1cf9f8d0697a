import HashEq.Proofs.Bytes
import HashEq.Proofs.Checks
import HashEq.Proofs.TypeTable.Placement

/-!
# The walk along a type

One step of the walk by which values are compared and hashed along their types, for
each way in which a type is put together. Addresses of parts do not wrap when the
whole value lies in the arena.

* `TypeTable.byParts`: induction along the types that a type is put together from;
* `equalVia_eq`, `hashVia_eq`: one step of the walk;
* `add_field`, `elementAddr_eq`: the addresses of fields and elements.
-/

namespace HashEq

/-- Whether a kind is one of the interfaces. -/
def Kind.isInterface : Kind → Bool
  | any | interface _ => true
  | _ => false

/-- Whether a kind has neither parts nor a value of its own choice inside. -/
def Kind.isLeaf : Kind → Bool
  | array .. | struct .. | any | interface _ => false
  | _ => true

namespace TypeTable

/-- Induction along the types that a type is put together from. -/
@[elab_as_elim]
theorem byParts (table : TypeTable) {motive : TypeId → Prop}
    (missing : ∀ ty f, table.get ty = .error f → motive ty)
    (leaf : ∀ ty e, table.get ty = .ok e →
      e.kind.isLeaf = true ∨ e.kind.isInterface = true → motive ty)
    (array : ∀ ty e elem len, table.get ty = .ok e → e.kind = .array elem len → motive elem →
      motive ty)
    (struct : ∀ ty e name members, table.get ty = .ok e → e.kind = .struct name members →
      (∀ field ∈ e.fields, motive field.ty) → motive ty)
    (ty : TypeId) : motive ty := by
  cases hget : table.get ty with
  | error f => exact missing ty f hget
  | ok e =>
    cases hkind : e.kind with
    | array elem len =>
      have hlt := part_lt hget (Entry.elem_mem_parts hkind)
      exact array ty e elem len hget hkind (byParts table missing leaf array struct elem)
    | struct name members =>
      refine struct ty e name members hget hkind fun field hf => ?_
      have hlt := part_lt hget (Entry.field_mem_parts hf)
      exact byParts table missing leaf array struct field.ty
    | any | interface _ => exact leaf ty e hget (.inr (by rw [hkind]; rfl))
    | _ => exact leaf ty e hget (.inl (by rw [hkind]; rfl))
termination_by ty.raw.toNat
decreasing_by all_goals exact UInt32.lt_iff_toNat_lt.1 hlt

end TypeTable

theorem map_attach_of_eq {α β : Type} {l : List α} {f : { a // a ∈ l } → β} {g : α → β}
    (h : ∀ a, f a = g a.1) : l.attach.map f = l.map g := by
  rw [List.map_congr_left fun a _ => h a, List.attach_map_val]

theorem foldlM_attach_of_eq {ε σ α : Type} {l : List α} {f : σ → { a // a ∈ l } → Except ε σ}
    {g : σ → α → Except ε σ} {state : σ} (h : ∀ state a, f state a = g state a.1) :
    l.attach.foldlM f state = l.foldlM g state := by
  have hf : f = fun state a => g state a.1 := funext fun state => funext (h state)
  rw [hf, ← List.foldlM_map, List.attach_map_subtype_val]

namespace Structural

variable {table : TypeTable} {arena : Arena} {ty : TypeId} {e : Entry}

section Step

variable (hget : table.get ty = .ok e) (p q h : Word)
include hget

/-- One step of comparing. -/
theorem equalVia_eq (dynamic : TypeId → Word → Word → Except EvalError Bool) :
    equalVia table arena dynamic ty p q =
      match e.kind with
      | .array elem len => conj ((List.range' 0 len.toNat).map fun i => (do
          let p ← elementAddr table p i elem
          let q ← elementAddr table q i elem
          equalVia table arena dynamic elem p q : Except EvalError Bool))
      | .struct _ _ => conj (e.fields.map fun field =>
          if field.isBlank then .ok true
          else (do
            let p ← Word.add p field.offset
            let q ← Word.add q field.offset
            equalVia table arena dynamic field.ty p q : Except EvalError Bool))
      | .any | .interface _ => do
        let (pWord, pData) ← Primitives.loadPair table arena p
        let (qWord, qData) ← Primitives.loadPair table arena q
        if pWord ≠ qWord then return false
        if pWord = 0 then return true
        dynamic (← dynamicType table .uncomparable pWord) pData qData
      | _ => leafEqual table arena e ty p q := by
  rw [equalVia]
  split
  · next hf => rw [hget] at hf; cases hf
  · next he' =>
    rw [hget] at he'
    cases he'
    split
    · next heq => rw [heq, allFrom_eq_conj]
    · next heq =>
      rw [heq, allM_eq_conj]
      exact congrArg conj (map_attach_of_eq fun _ => rfl)
    · next heq => rw [heq]
    · next heq => rw [heq]
    · next harray hstruct hany hinterface =>
      cases hkind : e.kind with
      | array elem len => exact (harray elem len hkind).elim
      | struct name members => exact (hstruct name members hkind).elim
      | any => exact (hany hkind).elim
      | interface name => exact (hinterface name hkind).elim
      | _ => rfl

/-- One step of hashing. -/
theorem hashVia_eq (dynamic : TypeId → Word → Word → Except EvalError Word) :
    hashVia table arena dynamic ty p h =
      match e.kind with
      | .array elem len => (List.range' 0 len.toNat).foldlM (fun h i => (do
          let p ← elementAddr table p i elem
          hashVia table arena dynamic elem p h : Except EvalError Word)) h
      | .struct _ _ => e.fields.foldlM (fun h field =>
          if field.isBlank then .ok h
          else (do
            let p ← Word.add p field.offset
            hashVia table arena dynamic field.ty p h : Except EvalError Word)) h
      | .any | .interface _ => do
        let (word, data) ← Primitives.loadPair table arena p
        if word = 0 then return h
        let ty ← dynamicType table .unhashable word
        return mixOut * (← dynamic ty data (h ^^^ mixIn))
      | _ => leafHash table arena e ty p h := by
  rw [hashVia]
  split
  · next hf => rw [hget] at hf; cases hf
  · next he' =>
    rw [hget] at he'
    cases he'
    split
    · next heq => rw [heq, foldFrom_eq_foldlM]
    · next heq =>
      rw [heq]
      exact foldlM_attach_of_eq fun _ _ => rfl
    · next heq => rw [heq]
    · next heq => rw [heq]
    · next harray hstruct hany hinterface =>
      cases hkind : e.kind with
      | array elem len => exact (harray elem len hkind).elim
      | struct name members => exact (hstruct name members hkind).elim
      | any => exact (hany hkind).elim
      | interface name => exact (hinterface name hkind).elim
      | _ => rfl

end Step

section Leaf

variable {p q h : Word} (hget : table.get ty = .ok e) (hkind : e.kind.isLeaf = true)
include hget hkind

/-- Where a type has no parts, one step of comparing is all. -/
theorem equalVia_of_isLeaf (dynamic : TypeId → Word → Word → Except EvalError Bool) :
    equalVia table arena dynamic ty p q = leafEqual table arena e ty p q := by
  rw [equalVia_eq hget]
  cases hkind' : e.kind with
  | array _ _ | struct _ _ | any | interface _ =>
    rw [hkind'] at hkind
    cases hkind
  | _ => rfl

/-- Where a type has no parts, one step of hashing is all. -/
theorem hashVia_of_isLeaf (dynamic : TypeId → Word → Word → Except EvalError Word) :
    hashVia table arena dynamic ty p h = leafHash table arena e ty p h := by
  rw [hashVia_eq hget]
  cases hkind' : e.kind with
  | array _ _ | struct _ _ | any | interface _ =>
    rw [hkind'] at hkind
    cases hkind
  | _ => rfl

end Leaf

variable {p : Word}

/-- The whole walk takes at least one step. -/
theorem callLimit_pos : 0 < Evaluation.callLimit :=
  Nat.two_pow_pos 256

theorem equalWithin_of_pos {depth : Nat} (h : 0 < depth) (q : Word) :
    equalWithin table arena depth ty p q =
      equalVia table arena (equalWithin table arena (depth - 1)) ty p q := by
  cases depth with
  | zero => exact absurd h (Nat.lt_irrefl 0)
  | succ depth => rfl

theorem hashWithin_of_pos {depth : Nat} (h : 0 < depth) (seed : Word) :
    hashWithin table arena depth ty p seed =
      hashVia table arena (hashWithin table arena (depth - 1)) ty p seed := by
  cases depth with
  | zero => exact absurd h (Nat.lt_irrefl 0)
  | succ depth => rfl

end Structural

/-! ### Addresses of parts -/

namespace TypeTable.Lawful

variable {table : TypeTable} {arena : Arena} {ty : TypeId} {e : Entry} {p : Word}
  (h : Lawful table) (hget : table.get ty = .ok e)
  (hp : arena.inBounds p e.size.toNat = true)
include h hget hp

theorem add_field {field : Field} (hf : field ∈ e.fields) :
    Word.add p field.offset = .ok (p + field.offset) ∧
      arena.inBounds (p + field.offset) (table.sizeOf field.ty).toNat = true := by
  have hend := h.field_end_le hget hf
  exact ⟨Arena.add_eq_ok hp (by omega), Arena.inBounds_add hp hend⟩

theorem toNat_elementOffset {elem : TypeId} {len : Word} (hkind : e.kind = .array elem len)
    {i : Nat} (hi : i < len.toNat) :
    (UInt64.ofNat i * table.sizeOf elem).toNat = i * (table.sizeOf elem).toNat := by
  have hend := h.elem_end_le hget hkind (Arena.lt_of_inBounds hp) hi
  have hsize := e.size.toNat_lt
  have hlen := len.toNat_lt
  rw [UInt64.toNat_mul, UInt64.toNat_ofNat_of_lt' (Nat.lt_trans hi hlen),
    Nat.mod_eq_of_lt (by omega)]

/-- The offset of an element does not overflow, and neither does its address. -/
theorem elementOffset_eq {elem : TypeId} {len : Word} (hkind : e.kind = .array elem len)
    {i : Nat} (hi : i < len.toNat) :
    Word.mul (UInt64.ofNat i) (table.sizeOf elem) = .ok (UInt64.ofNat i * table.sizeOf elem) ∧
      Word.add p (UInt64.ofNat i * table.sizeOf elem) =
        .ok (p + UInt64.ofNat i * table.sizeOf elem) := by
  have hend := h.elem_end_le hget hkind (Arena.lt_of_inBounds hp) hi
  have hoffset := h.toNat_elementOffset hget hp hkind hi
  refine ⟨?_, Arena.add_eq_ok hp (by omega)⟩
  rw [Word.mul, Word.checked_eq_ok_iff, hoffset,
    UInt64.toNat_ofNat_of_lt' (Nat.lt_trans hi len.toNat_lt)]

theorem elementAddr_eq {elem : TypeId} {len : Word} (hkind : e.kind = .array elem len)
    {i : Nat} (hi : i < len.toNat) :
    Structural.elementAddr table p i elem = .ok (p + UInt64.ofNat i * table.sizeOf elem) ∧
      arena.inBounds (p + UInt64.ofNat i * table.sizeOf elem)
        (table.sizeOf elem).toNat = true := by
  have hend := h.elem_end_le hget hkind (Arena.lt_of_inBounds hp) hi
  have hoffset := h.toNat_elementOffset hget hp hkind hi
  obtain ⟨hmul, hadd⟩ := h.elementOffset_eq hget hp hkind hi
  refine ⟨?_, Arena.inBounds_add hp (by rwa [hoffset])⟩
  rw [Structural.elementAddr, hmul]
  exact hadd

end TypeTable.Lawful

end HashEq
