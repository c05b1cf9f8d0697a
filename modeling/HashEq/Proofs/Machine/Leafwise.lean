import HashEq.Proofs.Machine.Bytewise
import HashEq.Proofs.Machine.Image

/-!
# Images leaf by leaf

Comparing and hashing images leaf by leaf goes on into the values that their
interfaces hold, as deep as interfaces nest. This is what the walk along the type
comes to. Of a type that is compared and hashed like one leaf there is one leaf
only, however deep it lies.

* `Leaves.equalWithin`, `Leaves.hashWithin`: comparing and hashing leaf by leaf;
* `Structural.equalWithin_eq_leaves`, `Structural.hashWithin_eq_leaves`: the walk
  along a type;
* `leaves_of_lone`: types with one leaf.
-/

namespace HashEq

open TypeTable

variable {table : TypeTable} {arena : Arena} {ty : TypeId} {e : Entry} {p q seed : Word} {n : Nat}

namespace Leaves

/-- Compares values of a type leaf by leaf; interfaces nest less than `depth` deep. -/
def equalWithin (table : TypeTable) (arena : Arena) : Nat → TypeId → Word → Word → Except EvalError Bool
  | 0, _, _, _ => .error (.fault .unending)
  | depth + 1, ty, p, q => equalVia table arena (equalWithin table arena depth) ty p q

/-- Hashes a value of a type leaf by leaf; interfaces nest less than `depth` deep. -/
def hashWithin (table : TypeTable) (arena : Arena) : Nat → TypeId → Word → Word → Except EvalError Word
  | 0, _, _, _ => .error (.fault .unending)
  | depth + 1, ty, p, h => hashVia table arena (hashWithin table arena depth) ty p h

end Leaves

/-! ### The values in interfaces -/

/-- The type that an interface tells is one with equality. -/
theorem of_dynamicType {refuse : String → EvalError} {word : Word} {dynamic : TypeId}
    (h : Structural.dynamicType table refuse word = .ok dynamic) :
    typeOfWord word = .ok dynamic ∧ table.Has dynamic ∧ table.base dynamic ≠ .noEquality := by
  obtain ⟨ty, htold, h⟩ := bind_eq_ok_iff.1 h
  cases hget : table.get ty with
  | error f =>
    rw [hget] at h
    cases h
  | ok e =>
    rw [hget] at h
    change (if e.base = .noEquality then _ else _) = _ at h
    split at h
    · cases htext : table.text ty with
      | error f =>
        rw [htext] at h
        cases h
      | ok text =>
        rw [htext] at h
        cases h
    · next hne =>
      cases h
      exact ⟨htold, ⟨e, hget⟩, by rwa [base_of_get hget]⟩

/-- The type that an interface tells is refused if it has no equality. -/
theorem dynamicType_eq (h : Lawful table) (refuse : String → EvalError) {word : Word}
    {dynamic : TypeId} (htold : typeOfWord word = .ok dynamic) (hhas : table.Has dynamic) :
    Structural.dynamicType table refuse word =
      if table.base dynamic = .noEquality then .error (refuse (table.shape dynamic).text)
      else .ok dynamic := by
  have htext := h.text_eq hhas
  obtain ⟨e, hget⟩ := hhas
  rw [Structural.dynamicType, htold, base_of_get hget]
  change (liftM (table.get dynamic) >>= fun e => if e.base = .noEquality then
    liftM (table.text dynamic) >>= fun text => throw (refuse text) else pure dynamic :
      Except EvalError TypeId) = _
  rw [hget, htext]
  rfl

theorem Leaf.equal_interface {dynamic : TypeId → Word → Word → Except EvalError Bool}
    {pWord pData qWord qData : Word} (hp : Primitives.loadPair table arena p = .ok (pWord, pData))
    (hq : Primitives.loadPair table arena q = .ok (qWord, qData)) :
    Leaf.interface.equal table arena dynamic p q =
      if pWord ≠ qWord then .ok false
      else if pWord = 0 then .ok true
      else Structural.dynamicType table .uncomparable pWord >>= fun inner =>
        dynamic inner pData qData := by
  rw [Leaf.equal, hp, hq]
  rfl

theorem Leaf.hash_interface {dynamic : TypeId → Word → Word → Except EvalError Word}
    {word data : Word} (hp : Primitives.loadPair table arena p = .ok (word, data)) :
    Leaf.interface.hash table arena dynamic p seed =
      if word = 0 then .ok seed
      else Structural.dynamicType table .unhashable word >>= fun inner =>
        dynamic inner data (seed ^^^ mixIn) >>= fun answer => .ok (mixOut * answer) := by
  rw [Leaf.hash, hp]
  rfl

namespace Leaves

/-- Only values that interfaces of both images hold matter to how such values are compared. -/
theorem equalVia_congr {dynamic dynamic' : TypeId → Word → Word → Except EvalError Bool}
    (h : ∀ inner pData qData, table.Has inner → table.base inner ≠ .noEquality →
      Holds table arena ty p inner pData → Holds table arena ty q inner qData →
      dynamic inner pData qData = dynamic' inner pData qData) :
    equalVia table arena dynamic ty p q = equalVia table arena dynamic' ty p q := by
  refine conj_map_congr fun (offset, leaf) hmem => ?_
  cases leaf with
  | interface =>
    cases hp : Primitives.loadPair table arena (p + offset) with
    | error _ => simp only [Leaf.equal, hp]; rfl
    | ok pPair =>
      cases hq : Primitives.loadPair table arena (q + offset) with
      | error _ => simp only [Leaf.equal, hp, hq]; rfl
      | ok qPair =>
        rw [Leaf.equal_interface hp hq, Leaf.equal_interface hp hq]
        split
        · rfl
        · next heq =>
          split
          · rfl
          · next hzero =>
            refine bind_congr_ok fun inner htype => ?_
            obtain ⟨htold, hhas, hne⟩ := of_dynamicType htype
            have hword := Decidable.not_not.1 heq
            exact h inner _ _ hhas hne ⟨offset, _, hmem, hp, hzero, htold, hne⟩
              ⟨offset, _, hmem, hq, hword ▸ hzero, hword ▸ htold, hne⟩
  | _ => rfl

/-- Only values that interfaces of the image hold matter to how such values are hashed. -/
theorem hashVia_congr {dynamic dynamic' : TypeId → Word → Word → Except EvalError Word}
    (h : ∀ inner data seed, table.Has inner → table.base inner ≠ .noEquality →
      Holds table arena ty p inner data → dynamic inner data seed = dynamic' inner data seed)
    (seed : Word) :
    hashVia table arena dynamic ty p seed = hashVia table arena dynamic' ty p seed := by
  refine foldlM_congr (fun seed (offset, leaf) hmem => ?_) seed
  cases leaf with
  | interface =>
    cases hp : Primitives.loadPair table arena (p + offset) with
    | error _ => simp only [Leaf.hash, hp]; rfl
    | ok pair =>
      rw [Leaf.hash_interface hp, Leaf.hash_interface hp]
      split
      · rfl
      · next hzero =>
        refine bind_congr_ok fun inner htype => ?_
        obtain ⟨htold, hhas, hne⟩ := of_dynamicType htype
        rw [h inner _ _ hhas hne ⟨offset, _, hmem, hp, hzero, htold, hne⟩]
  | _ => rfl

end Leaves

namespace Structural

/-- The walk along the type of two images compares them leaf by leaf, if all opaque memory takes
    up whole blocks. -/
theorem equalWithin_eq_leaves (h : Lawful table) (hwhole : table.OpaqueWhole) {depth : Nat}
    (hdepth : n ≤ depth) (hty : table.Has ty) (hne : table.base ty ≠ .noEquality)
    (hp : ImageWithin table arena n ty p) (hq : ImageWithin table arena n ty q) :
    equalWithin table arena depth ty p q = Leaves.equalWithin table arena n ty p q := by
  induction n generalizing depth ty p q with
  | zero => exact hp.elim
  | succ n ih =>
    obtain ⟨depth, rfl⟩ := Nat.exists_eq_add_of_le' hdepth
    rw [Nat.add_succ, equalWithin, Leaves.equalWithin,
      equalVia_eq_leaves h hwhole hty hne hp.readable.bounds hq.readable.bounds]
    exact Leaves.equalVia_congr fun inner pData qData hhas hne' hpHolds hqHolds =>
      ih (Nat.le_add_left _ _) hhas hne' (hp.2 inner pData hpHolds) (hq.2 inner qData hqHolds)

/-- The walk along the type of an image hashes it leaf by leaf, if all opaque memory takes up whole
    blocks. -/
theorem hashWithin_eq_leaves (h : Lawful table) (hwhole : table.OpaqueWhole) {depth : Nat}
    (hdepth : n ≤ depth) (hty : table.Has ty) (hne : table.base ty ≠ .noEquality)
    (hp : ImageWithin table arena n ty p) (seed : Word) :
    hashWithin table arena depth ty p seed = Leaves.hashWithin table arena n ty p seed := by
  induction n generalizing depth ty p seed with
  | zero => exact hp.elim
  | succ n ih =>
    obtain ⟨depth, rfl⟩ := Nat.exists_eq_add_of_le' hdepth
    rw [Nat.add_succ, hashWithin, Leaves.hashWithin,
      hashVia_eq_leaves h hwhole hty hne hp.readable.bounds]
    exact Leaves.hashVia_congr (fun inner data seed hhas hne' hholds =>
      ih (Nat.le_add_left _ _) hhas hne' (hp.2 inner data hholds) seed) seed

end Structural

/-! ### Types with one leaf -/

theorem leafOf_eq {e e' : Entry} (heq : e'.base = e.base) (hmemory : e.base ≠ .memory)
    (hspecial : e.base ≠ .special) (hne : e.base ≠ .noEquality) : leafOf e' = leafOf e := by
  unfold leafOf
  rw [heq]
  cases hbase : e.base with
  | memory => exact absurd hbase hmemory
  | special => exact absurd hbase hspecial
  | noEquality => exact absurd hbase hne
  | _ => rfl

theorem shift_zero (leaves : List (Word × Leaf)) : shift 0 leaves = leaves := by
  simp only [shift, UInt64.zero_add]
  exact List.map_id' _

/-- A type that is compared and hashed like a number, a string or an interface has no other leaf,
    as all that it is put together from is a lone field or a lone element. -/
theorem leaves_of_lone {ty : TypeId} {e : Entry} (h : Lawful table) (hget : table.get ty = .ok e)
    (hmemory : e.base ≠ .memory) (hspecial : e.base ≠ .special) (hne : e.base ≠ .noEquality) :
    table.leaves ty = [(0, leafOf e)] := by
  cases hkind : e.kind with
  | array elem len =>
    have hlt := part_lt hget (Entry.elem_mem_parts hkind)
    obtain ⟨e', hget'⟩ := h.elem_has hget hkind
    have hlaid := h.base_array hget hkind
    rw [base_of_get hget', arrayBase] at hlaid
    split at hlaid
    · next helem =>
      -- An array of plain memory is plain memory, and one without equality has none.
      rcases helem with helem | helem
      · exact absurd (hlaid.trans helem) hmemory
      · exact absurd (hlaid.trans helem) hne
    · split at hlaid
      · exact absurd hlaid hmemory
      · split at hlaid
        · next hlen =>
          -- An array of one element has the algorithm and the leaf of the element.
          rw [leaves_array hget hmemory hkind, hlen, UInt64.toNat_one, List.range'_one,
            List.flatMap_singleton, show UInt64.ofNat 0 = 0 from rfl, UInt64.zero_mul, shift_zero,
            leaves_of_lone h hget' (by rwa [← hlaid]) (by rwa [← hlaid]) (by rwa [← hlaid]),
            leafOf_eq hlaid.symm hmemory hspecial hne]
        · exact absurd hlaid hspecial
  | struct name members =>
    have hlaid := h.base_struct hget hkind
    unfold structBase at hlaid
    split at hlaid
    · next field ty' offset hfields =>
      -- A struct of one field has those of the field, which starts where the struct does.
      have hmem : ⟨⟨some field, ty'⟩, offset⟩ ∈ e.fields := hfields ▸ List.mem_singleton_self _
      have hlt := part_lt hget (Entry.field_mem_parts hmem)
      obtain ⟨e', hget'⟩ := h.field_has hget hmem
      have hoffset : offset = 0 := UInt64.toNat_inj.1 (h.offset_head hget hfields)
      rw [base_of_get hget'] at hlaid
      rw [leaves_struct hget hmemory hkind, hfields, List.flatMap_singleton, hoffset]
      change shift 0 (table.leaves ty') = _
      rw [shift_zero,
        leaves_of_lone h hget' (by rwa [← hlaid]) (by rwa [← hlaid]) (by rwa [← hlaid]),
        leafOf_eq hlaid.symm hmemory hspecial hne]
    · split at hlaid
      · exact absurd hlaid hne
      · split at hlaid
        · exact absurd hlaid hspecial
        · exact absurd hlaid hmemory
  | any | interface _ => exact leaves_leaf hget hmemory (.inr (by rw [hkind]; rfl))
  | _ => exact leaves_leaf hget hmemory (.inl (by rw [hkind]; rfl))
termination_by ty.raw.toNat
decreasing_by all_goals exact UInt32.lt_iff_toNat_lt.1 hlt

section Lone

variable (h : Lawful table) (hget : table.get ty = .ok e) (hmemory : e.base ≠ .memory)
  (hspecial : e.base ≠ .special) (hne : e.base ≠ .noEquality)
include h hget hmemory hspecial hne

theorem Leaves.equalVia_lone (dynamic : TypeId → Word → Word → Except EvalError Bool) :
    equalVia table arena dynamic ty p q = (leafOf e).equal table arena dynamic p q := by
  rw [equalVia, leaves_of_lone h hget hmemory hspecial hne, List.map_singleton, conj_singleton,
    UInt64.add_zero, UInt64.add_zero]

theorem Leaves.hashVia_lone (dynamic : TypeId → Word → Word → Except EvalError Word) :
    hashVia table arena dynamic ty p seed = (leafOf e).hash table arena dynamic p seed := by
  rw [hashVia, leaves_of_lone h hget hmemory hspecial hne, List.foldlM_cons, UInt64.add_zero]
  exact bind_pure _

end Lone

/-- A type that is compared like a string consists of a string. -/
theorem leaves_string (h : Lawful table) (hty : table.Has ty) (hbase : table.base ty = .string) :
    table.leaves ty = [(0, .string)] := by
  obtain ⟨e, hget⟩ := hty
  rw [base_of_get hget] at hbase
  rw [leaves_of_lone h hget (by rw [hbase]; decide) (by rw [hbase]; decide) (by rw [hbase]; decide),
    leafOf, hbase]

/-- A type that is compared like an interface consists of an interface. -/
theorem leaves_interface (h : Lawful table) (hty : table.Has ty)
    (hbase : table.base ty = .interface ∨ table.base ty = .nilInterface) :
    table.leaves ty = [(0, .interface)] := by
  obtain ⟨e, hget⟩ := hty
  rw [base_of_get hget] at hbase
  rw [leaves_of_lone h hget, leafOf]
  · rcases hbase with hbase | hbase <;> rw [hbase]
  all_goals rcases hbase with hbase | hbase <;> rw [hbase] <;> decide

theorem base_of_isString (h : Lawful table) (hty : table.Has ty)
    (hstring : table.isString ty = true) : table.base ty = .string := by
  rw [h.base_eq hty, beq_iff_eq.1 hstring]
  rfl

end HashEq
