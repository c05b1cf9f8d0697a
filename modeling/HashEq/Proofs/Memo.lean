import HashEq.Memo
import Mathlib.Data.List.Forall2

/-!
# The cells of memo tables

A key of a memo table has no cell, an empty one or a filled one. The values of the
table are those of the filled cells, one for each key.

* `Memo.Pending`: the cell of a key is there, but empty;
* `Memo.pending_reserve_iff`, `Memo.pending_complete_iff`: how cells come and are filled;
* `Memo.mem_values`, `Memo.forall₂_values`: the values, and the keys they belong to;
* `Memo.length_values`: if no cell is empty, there is a value for every key;
* `Memo.length_values_eq`: there are as many values as filled cells;
* `Memo.length_values_complete`: so one more, once an empty cell is filled.
-/

namespace HashEq

/-! ### The values of maps -/

section Values

variable {κ ν : Type} [BEq κ] [Hashable κ]

theorem values_eq_map_toList (m : Std.HashMap κ ν) : m.values = m.toList.map (·.2) := by
  change Std.DHashMap.Raw.values m.inner.1 = (Std.DHashMap.Raw.Const.toList m.inner.1).map (·.2)
  rw [Std.DHashMap.Internal.Raw.values_eq_values_toListModel,
    Std.DHashMap.Internal.Raw.Const.toList_eq_toListModel_map, Std.Internal.List.values_eq_map,
    List.map_map]
  rfl

variable [LawfulBEq κ] {m : Std.HashMap κ ν} {v : ν}

/-- Each key stands once in the list of a map. -/
theorem pairwise_toList (m : Std.HashMap κ ν) :
    m.toList.Pairwise fun a b => m[a.1]? = some a.2 ∧ m[b.1]? = some b.2 ∧ a.1 ≠ b.1 :=
  m.distinct_keys_toList.imp_of_mem fun ha hb hne =>
    ⟨Std.HashMap.mem_toList_iff_getElem?_eq_some.1 ha,
      Std.HashMap.mem_toList_iff_getElem?_eq_some.1 hb, ne_of_beq_false hne⟩

theorem mem_values_iff : v ∈ m.values ↔ ∃ key : κ, m[key]? = some v := by
  rw [values_eq_map_toList, List.mem_map]
  constructor
  · rintro ⟨⟨key, _⟩, hmem, rfl⟩
    exact ⟨key, Std.HashMap.mem_toList_iff_getElem?_eq_some.1 hmem⟩
  · rintro ⟨key, hkey⟩
    exact ⟨(key, v), Std.HashMap.mem_toList_iff_getElem?_eq_some.2 hkey, rfl⟩

theorem pairwise_values {R : ν → ν → Prop}
    (h : ∀ {k k' : κ} {v v' : ν}, m[k]? = some v → m[k']? = some v' → k ≠ k' → R v v') :
    m.values.Pairwise R := by
  rw [values_eq_map_toList, List.pairwise_map]
  exact (pairwise_toList m).imp fun hab => h hab.1 hab.2.1 hab.2.2

end Values

namespace Memo

variable {κ ν : Type} [BEq κ] [Hashable κ] {memo : Memo κ ν} {key k : κ} {v : ν}

/-! ### Cells -/

section Cells

/-- The cell of a key is there, but empty. -/
def Pending (memo : Memo κ ν) (key : κ) : Prop :=
  memo.cells[key]? = some none

theorem not_pending_empty : ¬(empty : Memo κ ν).Pending key := by
  rw [Pending, empty, Std.HashMap.getElem?_empty]
  intro h
  cases h

theorem get?_eq_some_iff : memo.get? key = some v ↔ memo.cells[key]? = some (some v) := by
  rw [get?, Option.join_eq_some_iff]

theorem Pending.get?_eq_none (h : memo.Pending key) : memo.get? key = none := by
  rw [get?, show memo.cells[key]? = some none from h, Option.join_some]

variable [LawfulBEq κ]

/-- A key without a value has an empty cell or no cell. -/
theorem pending_iff : memo.Pending key ↔ key ∈ memo.cells ∧ memo.get? key = none := by
  rw [Pending, get?, Option.join_eq_none_iff, Std.HashMap.mem_iff_isSome_getElem?]
  cases memo.cells[key]? with
  | none => simp
  | some cell => simp

theorem pending_reserve_iff :
    (memo.reserve key).Pending k ↔ k = key ∧ key ∉ memo.cells ∨ memo.Pending k := by
  rw [Pending, reserve, Std.HashMap.getElem?_insertIfNew]
  split
  · next h =>
    exact iff_of_true rfl (.inl ⟨(eq_of_beq h.1).symm, h.2⟩)
  · next h =>
    refine (or_iff_right fun hkey => h ⟨beq_iff_eq.2 hkey.1.symm, hkey.2⟩).symm

theorem pending_complete_iff : (memo.complete key v).Pending k ↔ k ≠ key ∧ memo.Pending k := by
  rw [Pending, complete, Std.HashMap.getElem?_insert]
  split
  · next h =>
    exact iff_of_false nofun fun hk => hk.1 (eq_of_beq h).symm
  · next h =>
    exact (and_iff_right fun heq => h (beq_iff_eq.2 heq.symm)).symm

end Cells

/-! ### Values -/

section Values

variable [LawfulBEq κ]

theorem mem_values : v ∈ memo.values ↔ ∃ key, memo.get? key = some v := by
  rw [values, List.mem_filterMap]
  constructor
  · rintro ⟨⟨key, _⟩, hmem, rfl⟩
    exact ⟨key, get?_eq_some_iff.2 (Std.HashMap.mem_toList_iff_getElem?_eq_some.1 hmem)⟩
  · rintro ⟨key, hkey⟩
    exact ⟨(key, some v), Std.HashMap.mem_toList_iff_getElem?_eq_some.2 (get?_eq_some_iff.1 hkey), rfl⟩

theorem values_empty : (empty : Memo κ ν).values = [] := by
  refine List.eq_nil_iff_forall_not_mem.2 fun v hv => ?_
  obtain ⟨key, hkey⟩ := mem_values.1 hv
  rw [get?_empty] at hkey
  cases hkey

theorem pairwise_values {R : ν → ν → Prop}
    (h : ∀ {k k' v v'}, memo.get? k = some v → memo.get? k' = some v' → k ≠ k' → R v v') :
    memo.values.Pairwise R := by
  rw [values, List.pairwise_filterMap]
  refine (pairwise_toList memo.cells).imp fun {a b} hab v hv v' hv' => ?_
  rw [hv, hv'] at hab
  exact h (get?_eq_some_iff.2 hab.1) (get?_eq_some_iff.2 hab.2.1) hab.2.2

/-- If no cell is empty, there is a value for every key that was requested. -/
theorem length_values (h : ∀ key, ¬memo.Pending key) : memo.values.length = memo.size := by
  have hfilled : ∀ cell ∈ memo.cells.toList, cell.2.isSome := by
    rintro ⟨key, _ | v⟩ hmem
    · exact absurd (Std.HashMap.mem_toList_iff_getElem?_eq_some.1 hmem) (h key)
    · rfl
  rw [size, ← Std.HashMap.length_toList, values]
  generalize memo.cells.toList = cells at hfilled
  induction cells with
  | nil => rfl
  | cons cell cells ih =>
    obtain ⟨v, hv⟩ := Option.isSome_iff_exists.1 (hfilled cell List.mem_cons_self)
    rw [List.filterMap_cons_some hv, List.length_cons, List.length_cons,
      ih fun b hb => hfilled b (List.mem_cons_of_mem _ hb)]

/-- The values belong to the keys whose cells are filled, one to each. -/
theorem forall₂_values (memo : Memo κ ν) : ∃ keys : List κ, keys.Nodup ∧
    (∀ key, key ∈ keys ↔ ∃ v, memo.get? key = some v) ∧
    keys.Forall₂ (fun key v => memo.get? key = some v) memo.values := by
  refine ⟨memo.cells.toList.filterMap fun cell => cell.2.map fun _ => cell.1, ?_, fun key => ?_, ?_⟩
  · rw [List.Nodup, List.pairwise_filterMap]
    refine (pairwise_toList memo.cells).imp fun {a b} hab k hk k' hk' => ?_
    obtain ⟨_, _, rfl⟩ := Option.map_eq_some_iff.1 hk
    obtain ⟨_, _, rfl⟩ := Option.map_eq_some_iff.1 hk'
    exact hab.2.2
  · rw [List.mem_filterMap]
    constructor
    · rintro ⟨⟨key, cell⟩, hmem, hkey⟩
      obtain ⟨v, rfl, rfl⟩ := Option.map_eq_some_iff.1 hkey
      exact ⟨v, get?_eq_some_iff.2 (Std.HashMap.mem_toList_iff_getElem?_eq_some.1 hmem)⟩
    · rintro ⟨v, hv⟩
      exact ⟨(key, some v), Std.HashMap.mem_toList_iff_getElem?_eq_some.2 (get?_eq_some_iff.1 hv), rfl⟩
  · have hcells : ∀ cell ∈ memo.cells.toList, ∀ v, cell.2 = some v → memo.get? cell.1 = some v :=
      fun cell hmem v hv =>
        get?_eq_some_iff.2 (hv ▸ Std.HashMap.mem_toList_iff_getElem?_eq_some.1 hmem)
    rw [values]
    generalize memo.cells.toList = cells at hcells
    induction cells with
    | nil => exact .nil
    | cons cell cells ih =>
      have hcells' := ih fun cell' hmem => hcells cell' (List.mem_cons_of_mem _ hmem)
      rcases hcell : cell.2 with _ | v
      · rwa [List.filterMap_cons_none (by rw [hcell]; rfl), List.filterMap_cons_none hcell]
      · rw [List.filterMap_cons_some (by rw [hcell]; rfl), List.filterMap_cons_some hcell]
        exact .cons (hcells cell List.mem_cons_self v hcell) hcells'

/-- The number of values is the number of keys whose cells are filled. -/
theorem length_values_eq {keys : List κ} (hnodup : keys.Nodup)
    (hmem : ∀ key, key ∈ keys ↔ ∃ v, memo.get? key = some v) :
    memo.values.length = keys.length := by
  obtain ⟨keys', hnodup', hmem', hvalues⟩ := forall₂_values memo
  rw [← hvalues.length_eq]
  refine ((List.perm_ext_iff_of_nodup hnodup' hnodup).2 fun key => ?_).length_eq
  rw [hmem', hmem]

theorem length_values_congr {memo' : Memo κ ν}
    (h : ∀ key, (∃ v, memo'.get? key = some v) ↔ ∃ v, memo.get? key = some v) :
    memo'.values.length = memo.values.length := by
  obtain ⟨keys, hnodup, hmem, hvalues⟩ := forall₂_values memo
  rw [← hvalues.length_eq]
  exact length_values_eq hnodup fun key => (hmem key).trans (h key).symm

/-- Filling a cell adds a value. -/
theorem length_values_complete (h : memo.get? key = none) :
    (memo.complete key v).values.length = memo.values.length + 1 := by
  obtain ⟨keys, hnodup, hmem, hvalues⟩ := forall₂_values memo
  have hnew : key ∉ keys := by
    rw [hmem, h]
    rintro ⟨_, ⟨⟩⟩
  rw [← hvalues.length_eq, ← List.length_cons]
  refine length_values_eq (List.nodup_cons.2 ⟨hnew, hnodup⟩) fun k => ?_
  rw [get?_complete, List.mem_cons, hmem]
  split
  · next heq => exact iff_of_true (.inl (eq_of_beq heq).symm) ⟨v, rfl⟩
  · next hne => exact or_iff_right fun heq => hne (beq_iff_eq.2 heq.symm)

end Values

end Memo

end HashEq
