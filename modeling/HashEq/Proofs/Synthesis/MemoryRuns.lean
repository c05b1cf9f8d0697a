import HashEq.Proofs.Machine.Runs
import HashEq.Proofs.TypeTable.NaturalLayout
import HashEq.Synthesis.Hash
import Mathlib.Data.List.Forall2
import Mathlib.Data.List.Sort

/-!
# Maximal runs

A run of plain memory is as long as can be. It ends with the struct, at unused bytes,
before a field that is blank or no plain memory, or, on a machine that loads from
aligned addresses only, where it would outgrow the alignment guaranteed at its start.

A hash function goes from run to run. The runs are made up of the fields of plain
memory that have a name, each of them once and in order. The other fields with a name
are hashed alone, and blank fields are passed over.

* `isGuaranteed_guaranteedAlign`: the alignment at an offset;
* `LaidOut.memoryRun_ends`, `IsRun.next_le`: why a run ends, and that no run from the
  same start is longer;
* `Coherent.flatMap_runs`, `Coherent.map_others`: the fields that are hashed in runs, and
  those that are hashed alone;
* `memory_runs_maximal`: all of this for the structs of a table.
-/

namespace HashEq

/-! ### The alignment at an offset -/

/-- `n` is the alignment that values of alignment `align` guarantee at an offset: theirs, or else the
    largest power of two that divides the offset. -/
def IsGuaranteed (align offset n : Nat) : Prop :=
  if align ∣ offset then n = align else IsGreatest {m | (∃ k, m = 2 ^ k) ∧ m ∣ offset} n

theorem IsGuaranteed.unique {align offset n n' : Nat} (h : IsGuaranteed align offset n)
    (h' : IsGuaranteed align offset n') : n = n' := by
  unfold IsGuaranteed at h h'
  split at h
  · next hdvd =>
    rw [if_pos hdvd] at h'
    rw [h, h']
  · next hdvd =>
    rw [if_neg hdvd] at h'
    exact h.unique h'

theorem isGreatest_lowestBit {n : Nat} (h : 0 < n) :
    IsGreatest {m | (∃ k, m = 2 ^ k) ∧ m ∣ n} (lowestBit n) := by
  refine ⟨⟨exists_lowestBit_eq h, lowestBit_dvd n⟩, ?_⟩
  rintro _ ⟨⟨k, rfl⟩, hdvd⟩
  exact Nat.le_of_dvd (Nat.pos_of_dvd_of_pos (lowestBit_dvd n) h) (pow_dvd_lowestBit hdvd)

theorem isGuaranteed_guaranteedAlign {align : Word} (h : isPowerOfTwo align.toNat = true)
    (offset : Word) :
    IsGuaranteed align.toNat offset.toNat (TypeTable.guaranteedAlign align offset).toNat := by
  -- The bits below the alignment are the remainder.
  have hand : (offset &&& (align - 1)).toNat = offset.toNat % align.toNat := by
    have hone : (1 : Word) ≤ align := UInt64.le_iff_toNat_le.2 (pos_of_isPowerOfTwo h)
    obtain ⟨k, hk⟩ := isPowerOfTwo_iff.1 h
    rw [UInt64.toNat_and, UInt64.toNat_sub_of_le _ _ hone, hk]
    exact Nat.and_two_pow_sub_one_eq_mod offset.toNat k
  have hdvd : offset &&& (align - 1) = 0 ↔ align.toNat ∣ offset.toNat := by
    rw [← UInt64.toNat_inj, hand, Nat.dvd_iff_mod_eq_zero]
    rfl
  unfold IsGuaranteed TypeTable.guaranteedAlign
  split
  · next halign => rw [if_pos (hdvd.2 halign)]
  · next halign =>
    have hpos : 0 < offset.toNat := Nat.pos_of_ne_zero fun hzero =>
      halign (hzero ▸ Nat.dvd_zero _)
    have hle : lowestBit offset.toNat ≤ offset.toNat := Nat.le_of_dvd hpos (lowestBit_dvd _)
    rw [if_neg (mt hdvd.1 halign),
      UInt64.toNat_ofNat_of_lt' (Nat.lt_of_le_of_lt hle offset.toNat_lt_size)]
    exact isGreatest_lowestBit hpos

namespace TypeTable

/-- Field `i` of a struct has a name and is plain memory. -/
def isPlainField (table : TypeTable) (ty : TypeId) (i : Nat) : Bool :=
  (table.fields ty)[i]?.any fun field => !field.isBlank && table.isMemory field.ty

/-- Field `i` of a struct has a name and is no plain memory. -/
def isOtherField (table : TypeTable) (ty : TypeId) (i : Nat) : Bool :=
  (table.fields ty)[i]?.any fun field => !field.isBlank && !table.isMemory field.ty

/-- Fields of plain memory, from field `start` on, that can be taken as one block. -/
structure IsRun (table : TypeTable) (ty : TypeId) (start : Nat) (run : MemoryRun) : Prop where
  lt : start < run.next
  le : run.next ≤ (table.fields ty).length
  plain : ∀ i, start ≤ i → i < run.next → table.isPlainField ty i = true
  /-- Every field begins where the one before ends. -/
  contiguous : ∀ i field next, start ≤ i → i + 1 < run.next → (table.fields ty)[i]? = some field →
    (table.fields ty)[i + 1]? = some next →
    next.offset.toNat = field.offset.toNat + (table.sizeOf field.ty).toNat
  size : run.size.toNat = table.bytesOf (covered (table.fields ty) start run.next)
  /-- Where loads have to be aligned, a block of several fields can be loaded in one piece. -/
  bounded : 1 < table.target.minAlignment.toNat → start + 1 < run.next → ∃ first n,
    (table.fields ty)[start]? = some first ∧
      IsGuaranteed (table.alignOf ty).toNat first.offset.toNat n ∧ run.size.toNat ≤ n

/-- Why a run from field `start` does not take in field `next`. -/
inductive RunEnds (table : TypeTable) (ty : TypeId) (start next : Nat) : Prop
  | last : next = (table.fields ty).length → RunEnds table ty start next
  | padded : table.isPaddedField ty (next - 1) = true → RunEnds table ty start next
  | blank {field : Field} : (table.fields ty)[next]? = some field → field.isBlank = true →
      RunEnds table ty start next
  | other {field : Field} : (table.fields ty)[next]? = some field →
      table.isMemory field.ty = false → RunEnds table ty start next
  /-- The run would be longer than the alignment at its start. -/
  | limit {first field : Field} {n : Nat} : 1 < table.target.minAlignment.toNat →
      (table.fields ty)[start]? = some first → (table.fields ty)[next]? = some field →
      IsGuaranteed (table.alignOf ty).toNat first.offset.toNat n →
      first.offset.toNat + n < field.offset.toNat + (table.sizeOf field.ty).toNat →
      RunEnds table ty start next

/-- A run that cannot be extended. -/
structure IsMaximal (table : TypeTable) (ty : TypeId) (start : Nat) (run : MemoryRun) : Prop
    extends IsRun table ty start run where
  ends : RunEnds table ty start run.next
  longest : ∀ other, IsRun table ty start other → other.next ≤ run.next

variable {table : TypeTable} {ty : TypeId} {e : Entry} {fields : List Field} {field next : Field}
  {start stop i j : Nat} {run : MemoryRun}

theorem isPlainField_iff : table.isPlainField ty i = true ↔
    ∃ field, (table.fields ty)[i]? = some field ∧ field.isBlank = false ∧
      table.isMemory field.ty = true := by
  rw [isPlainField, Option.any_eq_true]
  simp only [Bool.and_eq_true, Bool.not_eq_true']

theorem isOtherField_iff : table.isOtherField ty i = true ↔
    ∃ field, (table.fields ty)[i]? = some field ∧ field.isBlank = false ∧
      table.isMemory field.ty = false := by
  rw [isOtherField, Option.any_eq_true]
  simp only [Bool.and_eq_true, Bool.not_eq_true']

/-! ### Fields in a row -/

theorem getElem?_covered (h : start + i < stop) :
    (covered fields start stop)[i]? = fields[start + i]? := by
  rw [covered, List.getElem?_take_of_lt (by omega), List.getElem?_drop]

theorem covered_append (hstart : start ≤ i) (hstop : i ≤ stop) :
    covered fields start i ++ covered fields i stop = covered fields start stop := by
  have hdrop : fields.drop i = (fields.drop start).drop (i - start) := by
    rw [List.drop_drop, Nat.add_sub_cancel' hstart]
  have hcount : stop - start = (i - start) + (stop - i) := by omega
  rw [covered, covered, covered, hdrop, hcount, List.take_add]

theorem bytesOf_append (before after : List Field) :
    table.bytesOf (before ++ after) = table.bytesOf before + table.bytesOf after := by
  rw [bytesOf, List.map_append, List.sum_append, bytesOf, bytesOf]

theorem Contiguous.stop_eq (h : Contiguous table start fields stop) :
    stop = start + table.bytesOf fields := by
  induction fields generalizing start with
  | nil => exact h.symm
  | cons field fields ih =>
    rw [ih h.2, bytesOf, bytesOf, List.map_cons, List.sum_cons, Nat.add_assoc]

theorem Contiguous.offset_eq (h : Contiguous table start fields stop) (hi : fields[i]? = some field)
    (hnext : fields[i + 1]? = some next) :
    next.offset.toNat = field.offset.toNat + (table.sizeOf field.ty).toNat := by
  induction fields generalizing start i with
  | nil => cases hi
  | cons first rest ih =>
    cases i with
    | succ i => exact ih h.2 hi hnext
    | zero =>
      cases hi
      cases rest with
      | nil => cases hnext
      | cons second rest =>
        cases hnext
        rw [h.2.1, h.1]

theorem getElem?_followed {size : Word} (hi : fields[i]? = some field)
    (hnext : fields[i + 1]? = some next) :
    (followed size fields)[i]? = some (field, next.offset) := by
  fun_induction followed size fields generalizing i with
  | case1 => cases hi
  | case2 => cases hnext
  | case3 first second rest ih =>
    cases i with
    | zero =>
      cases hi
      cases hnext
      rfl
    | succ i => exact ih hi hnext

theorem isPaddedField_eq (hi : (table.fields ty)[i]? = some field)
    (hnext : (table.fields ty)[i + 1]? = some next) :
    table.isPaddedField ty i = table.isPadded field next.offset := by
  rw [isPaddedField, getElem?_followed hi hnext]

/-! ### Why a run ends -/

/-- The first field that a run does not take in does not belong to it. -/
theorem extension_stops (table : TypeTable) (fits : Word → Bool) (last : Field) (rest : List Field) :
    table.extension fits last rest = rest ∨
      ∃ field, rest[(table.extension fits last rest).length]? = some field ∧
        (table.isPadded ((table.extension fits last rest).getLastD last) field.offset = true ∨
          field.isBlank = true ∨ table.isMemory field.ty = false ∨
          fits (table.fieldEnd field) = false) := by
  fun_induction table.extension fits last rest with
  | case1 => exact .inl rfl
  | case2 last field rest hstops =>
    simp only [Bool.or_eq_true, Bool.not_eq_true', or_assoc] at hstops
    exact .inr ⟨field, rfl, hstops⟩
  | case3 last field rest _ ih =>
    rcases ih with ih | ⟨next, hnext, hstops⟩
    · exact .inl (congrArg (field :: ·) ih)
    · refine .inr ⟨next, ?_, ?_⟩
      · rwa [List.length_cons, List.getElem?_cons_succ]
      · rwa [List.getLastD_cons]

section Taken

variable (hget : table.get ty = .ok e) {first : Field} (hfirst : e.fields[i]? = some first)
include hget hfirst

/-- The last field of a run comes right before the first one that is not taken in. -/
theorem getElem?_last : e.fields[(table.memoryRun ty i).next - 1]? =
    some ((table.taken e first i).getLastD first) := by
  have hlt : i < e.fields.length := (List.getElem?_eq_some_iff.1 hfirst).1
  have hdrop : e.fields.drop i = first :: e.fields.drop (i + 1) := by
    rw [List.drop_eq_getElem_cons hlt, (List.getElem?_eq_some_iff.1 hfirst).2]
  have htaken : table.taken e first i <+: e.fields.drop (i + 1) := extension_prefix _ first _
  obtain ⟨rest, hrest⟩ := hdrop ▸ (List.prefix_cons_inj first).2 htaken
  have hindex : (table.memoryRun ty i).next - 1 = i + (table.taken e first i).length := by
    rw [memoryRun_of_get hget hfirst]
    dsimp only
    omega
  have hlast : (first :: table.taken e first i)[(table.taken e first i).length]? =
      some ((table.taken e first i).getLastD first) := by
    rw [List.getLastD_eq_getLast?, ← List.getLast?_cons, List.getLast?_eq_getElem?]
    rfl
  rw [hindex, ← List.getElem?_drop, ← hrest, List.getElem?_append_left (by simp), hlast]

/-- A run of several fields keeps to the alignment at its start. -/
theorem memoryRun_bounded (hmin : 1 < table.target.minAlignment.toNat)
    (hnext : i + 1 < (table.memoryRun ty i).next) :
    (table.memoryRun ty i).size.toNat ≤ (guaranteedAlign e.align first.offset).toNat := by
  rw [memoryRun_of_get hget hfirst] at hnext ⊢
  have hne : table.taken e first i ≠ [] := fun hnil => by
    rw [hnil] at hnext
    exact Nat.lt_irrefl _ hnext
  have hmem : (table.taken e first i).getLastD first ∈ table.taken e first i := by
    rw [List.getLastD_eq_getLast?, List.getLast?_eq_some_getLast hne]
    exact List.getLast_mem hne
  have hmay := (of_mem_extension hmem).2.2
  rw [mayEnd, Bool.or_eq_true, decide_eq_true_iff, decide_eq_true_iff] at hmay
  exact UInt64.le_iff_toNat_le.1 (hmay.resolve_left fun hle =>
    absurd (UInt64.le_iff_toNat_le.1 hle) (Nat.not_le.2 hmin))

end Taken

namespace LaidOut

variable (h : table.LaidOut e)
include h

/-- Of two fields the earlier one ends before the later one starts. -/
theorem end_le_offset (hij : i < j) (hi : e.fields[i]? = some field)
    (hj : e.fields[j]? = some next) :
    field.offset.toNat + (table.sizeOf field.ty).toNat ≤ next.offset.toNat := by
  obtain ⟨name, members, hkind⟩ := h.isStruct_of_mem (List.mem_of_getElem? hi)
  obtain ⟨stop, hplaced, _⟩ := h.placed hkind
  obtain ⟨hilt, rfl⟩ := List.getElem?_eq_some_iff.1 hi
  obtain ⟨hjlt, rfl⟩ := List.getElem?_eq_some_iff.1 hj
  exact List.pairwise_iff_getElem.1 hplaced.pairwise i j hilt hjlt hij

variable (hget : table.get ty = .ok e) {first : Field} (hfirst : e.fields[i]? = some first)
include hget hfirst

/-- The field after a run does not belong to it. -/
theorem memoryRun_ends (halign : isPowerOfTwo e.align.toNat = true) :
    RunEnds table ty i (table.memoryRun ty i).next := by
  have hlt : i < e.fields.length := (List.getElem?_eq_some_iff.1 hfirst).1
  have hlast := getElem?_last hget hfirst
  have hrun := memoryRun_of_get hget hfirst
  have hfields := fields_of_get hget
  rcases extension_stops table (table.mayEnd e first) first (e.fields.drop (i + 1)) with
    hall | ⟨next, hnext, hstops⟩
  · -- The run takes in all fields up to the end of the struct.
    refine .last ?_
    have hlength : (table.taken e first i).length = e.fields.length - (i + 1) := by
      rw [taken, hall, List.length_drop]
    rw [hfields, hrun, hlength]
    dsimp only
    omega
  · -- The field that stopped it is the one after the run.
    have hnext' : (table.fields ty)[(table.memoryRun ty i).next]? = some next := by
      rw [hfields, hrun, ← hnext, List.getElem?_drop]
      rfl
    rcases hstops with hpadded | hblank | hother | hlimit
    · refine .padded ?_
      rw [isPaddedField_eq (by rw [hfields, hlast]) ?_]
      · exact hpadded
      · rwa [Nat.sub_add_cancel (Nat.lt_of_le_of_lt (Nat.zero_le i) (table.lt_memoryRun_next ty i))]
    · exact .blank hnext' hblank
    · exact .other hnext' hother
    · -- In order to outgrow the limit there must be one.
      rw [hfields] at hnext'
      have hend := h.toNat_fieldEnd (List.mem_of_getElem? hnext')
      have hle := h.end_le_offset (table.lt_memoryRun_next ty i) hfirst hnext'
      rw [mayEnd, Bool.or_eq_false_iff, decide_eq_false_iff_not, decide_eq_false_iff_not,
        UInt64.le_iff_toNat_le, UInt64.le_iff_toNat_le, UInt64.toNat_sub_of_le _ _
          (UInt64.le_iff_toNat_le.2 (by omega)), hend] at hlimit
      have hmin : 1 < table.target.minAlignment.toNat := Nat.lt_of_not_le hlimit.1
      refine .limit (n := (guaranteedAlign e.align first.offset).toNat) hmin (hfields ▸ hfirst)
        (hfields ▸ hnext') ?_ (by omega)
      rw [alignOf, entry_of_get hget]
      exact isGuaranteed_guaranteedAlign halign first.offset

end LaidOut

/-! ### Runs that cannot be extended -/

namespace IsRun

variable (hrun : IsRun table ty start run)
include hrun

/-- Every field of a run has a name and is plain memory. -/
theorem field_plain (hi : start ≤ i) (hlt : i < run.next)
    (hfield : (table.fields ty)[i]? = some field) :
    field.isBlank = false ∧ table.isMemory field.ty = true := by
  obtain ⟨field', hfield', hplain⟩ := isPlainField_iff.1 (hrun.plain i hi hlt)
  rw [hfield] at hfield'
  cases hfield'
  exact hplain

/-- The fields of a run fill the bytes up to the end of each of them. -/
theorem offset_add_bytesOf {first : Field} (hfirst : (table.fields ty)[start]? = some first)
    (hi : start ≤ i) (hlt : i < run.next) (hfield : (table.fields ty)[i]? = some field) :
    first.offset.toNat + table.bytesOf (covered (table.fields ty) start (i + 1)) =
      field.offset.toNat + (table.sizeOf field.ty).toNat := by
  induction i, hi using Nat.le_induction generalizing field with
  | base =>
    rw [hfirst] at hfield
    cases hfield
    rw [covered_single hfirst, bytesOf, List.map_singleton, List.sum_singleton]
  | succ i hi ih =>
    obtain ⟨before, hbefore, _⟩ := isPlainField_iff.1 (hrun.plain i hi (by omega))
    rw [hrun.contiguous i before field hi hlt hbefore hfield, ← ih (by omega) hbefore,
      ← covered_append (i := i + 1) (by omega) (by omega), bytesOf_append, covered_single hfield,
      Nat.add_assoc, Nat.add_left_cancel_iff, Nat.add_left_cancel_iff, bytesOf, List.map_singleton,
      List.sum_singleton]

/-- A field that ends a run belongs to no run from the same start. -/
theorem next_le (hlt : start < stop) (hends : RunEnds table ty start stop) : run.next ≤ stop := by
  refine Nat.le_of_not_lt fun hnext => ?_
  cases hends with
  | last heq => exact absurd hrun.le (Nat.not_le.2 (heq ▸ hnext))
  | padded hpadded =>
    obtain ⟨last, hlast, _⟩ := isPlainField_iff.1 (hrun.plain (stop - 1) (by omega) (by omega))
    obtain ⟨field, hfield, _⟩ := isPlainField_iff.1 (hrun.plain stop (by omega) hnext)
    have hstop : stop - 1 + 1 = stop := by omega
    have hoffset := hrun.contiguous (stop - 1) last field (by omega) (hstop.symm ▸ hnext) hlast
      (hstop.symm ▸ hfield)
    rw [isPaddedField_eq hlast (hstop.symm ▸ hfield), isPadded_iff hoffset.ge] at hpadded
    omega
  | blank hfield hblank =>
    have hplain := hrun.field_plain (Nat.le_of_lt hlt) hnext hfield
    exact absurd (hblank.symm.trans hplain.1) Bool.noConfusion
  | other hfield hother =>
    have hplain := hrun.field_plain (Nat.le_of_lt hlt) hnext hfield
    exact absurd (hother.symm.trans hplain.2) Bool.noConfusion
  | @limit first field n hmin hfirst hfield hguaranteed hlimit =>
    -- A longer run holds the bytes up to the end of this field.
    obtain ⟨first', n', hfirst', hguaranteed', hbounded⟩ := hrun.bounded hmin (by omega)
    rw [hfirst] at hfirst'
    cases hfirst'
    cases hguaranteed.unique hguaranteed'
    have hend := hrun.offset_add_bytesOf hfirst (Nat.le_of_lt hlt) hnext hfield
    rw [hrun.size, ← covered_append (i := stop + 1) (by omega) (by omega), bytesOf_append] at hbounded
    omega

end IsRun

section Plain

variable (h : Coherent table) (hget : table.get ty = .ok e)
  (hplain : table.isPlainField ty start = true)
include h hget hplain

/-- What starts with a field of plain memory is a run. -/
theorem Coherent.memoryRun_isRun : IsRun table ty start (table.memoryRun ty start) := by
  have halign := h.isPowerOfTwo_align hget
  have hfields := fields_of_get hget
  obtain ⟨first, hfirst, hblank, hmemory⟩ := isPlainField_iff.1 hplain
  rw [hfields] at hfirst
  obtain ⟨hlt, hle, hrun⟩ := (h.laidOut hget).run hget hfirst hblank (beq_iff_eq.1 hmemory)
  exact {
    lt := hlt
    le := hfields ▸ hle
    plain := fun i hi hnext => by
      have hfield := List.getElem?_eq_getElem (Nat.lt_of_lt_of_le hnext hle)
      obtain ⟨_, hblank, hmemory⟩ := hrun.plain _ (mem_covered hfield hi hnext)
      exact isPlainField_iff.2 ⟨_, by rw [hfields, hfield], hblank, beq_iff_eq.2 hmemory⟩
    contiguous := fun i field next hi hnext hfield hfield' => by
      obtain ⟨k, rfl⟩ := Nat.exists_eq_add_of_le hi
      rw [hfields] at hfield hfield'
      rw [← getElem?_covered (Nat.lt_of_succ_lt hnext)] at hfield
      rw [Nat.add_assoc] at hnext hfield'
      rw [← getElem?_covered hnext] at hfield'
      exact hrun.contiguous.offset_eq hfield hfield'
    size := by
      have hstop := hrun.contiguous.stop_eq
      rw [hfields]
      omega
    bounded := fun hmin hnext => by
      rw [hfields, alignOf, entry_of_get hget]
      exact ⟨first, _, hfirst, isGuaranteed_guaranteedAlign halign first.offset,
        memoryRun_bounded hget hfirst hmin hnext⟩ }

/-- The run that starts with a field of plain memory cannot be extended. -/
theorem Coherent.memoryRun_isMaximal : IsMaximal table ty start (table.memoryRun ty start) := by
  have hrun := h.memoryRun_isRun hget hplain
  obtain ⟨first, hfirst, _⟩ := isPlainField_iff.1 hplain
  have hends := (h.laidOut hget).memoryRun_ends hget (fields_of_get hget ▸ hfirst)
    (h.isPowerOfTwo_align hget)
  exact ⟨hrun, hends, fun other hother => hother.next_le hrun.lt hends⟩

end Plain

/-! ### From run to run -/

/-- The fields that are hashed alone or start a run, from field `i` on. -/
def hashedFrom (table : TypeTable) (ty : TypeId) (i : Nat) : List (Field × Nat) :=
  leaders (table.hashedUpTo ty) i (table.fields ty).zipIdx

/-- The statement of a hash function for a field: the run that it starts is hashed as one block, or
    the field alone, by the function for its type. -/
inductive HashedBy (table : TypeTable) (ty : TypeId) : Field × Nat → Stmt → Prop
  | run {field : Field} {i : Nat} : table.isMemory field.ty = true →
      HashedBy table ty (field, i) (.assign HashCode.h (.call (.primitive ⟨.hash, .memory⟩)
        [.addr (.field (.deref (.var HashCode.p) ty) ty i), .const (table.memoryRun ty i).size,
          .var HashCode.h]))
  | alone {field : Field} {i : Nat} {callee : Callee} : table.isMemory field.ty = false →
      table.hashCallee field.ty = .ok callee →
      HashedBy table ty (field, i) (.assign HashCode.h (.call callee
        [.addr (.field (.deref (.var HashCode.p) ty) ty i), .var HashCode.h]))

/-- A hash function hashes the fields of plain memory by runs, and the others one by one. -/
structure HashesByRuns (table : TypeTable) (ty : TypeId) : Prop where
  starts : table.hashedFields ty = table.hashedFrom ty 0
  /-- A blank field is passed over. Behind a run hashing goes on with the field after it, and behind
      any other field with the next one. -/
  goesOn : ∀ i field, (table.fields ty)[i]? = some field → table.hashedFrom ty i =
    if field.isBlank then table.hashedFrom ty (i + 1)
    else (field, i) :: table.hashedFrom ty
      (if table.isMemory field.ty then (table.memoryRun ty i).next else i + 1)
  ends : ∀ i, (table.fields ty).length ≤ i → table.hashedFrom ty i = []
  /-- The runs are made up of all fields of plain memory with a name, each once and in order. -/
  runs : (((table.hashedFields ty).filter fun stop => table.isMemory stop.1.ty).flatMap fun stop =>
      List.range' stop.2 ((table.memoryRun ty stop.2).next - stop.2)) =
    (List.range (table.fields ty).length).filter (table.isPlainField ty)
  /-- The other fields with a name are hashed alone. -/
  others : ((table.hashedFields ty).filter fun stop => !table.isMemory stop.1.ty).map (·.2) =
    (List.range (table.fields ty).length).filter (table.isOtherField ty)
  /-- There is one statement for each of them. -/
  code : ∀ steps, table.hashSteps ty = .ok steps →
    (table.hashedFields ty).Forall₂ (HashedBy table ty) steps

theorem lt_hashedUpTo (table : TypeTable) (ty : TypeId) (i : Nat) : i < table.hashedUpTo ty i := by
  unfold hashedUpTo
  split
  · split
    · exact table.lt_memoryRun_next ty i
    · exact Nat.lt_succ_self i
  · exact Nat.lt_succ_self i

theorem hashedUpTo_eq (hi : (table.fields ty)[i]? = some field) : table.hashedUpTo ty i =
    if table.isMemory field.ty then (table.memoryRun ty i).next else i + 1 := by
  rw [hashedUpTo, hi]

theorem of_mem_hashedFields (h : (field, i) ∈ table.hashedFields ty) :
    (table.fields ty)[i]? = some field ∧ field.isBlank = false :=
  let ⟨hmem, hblank⟩ := mem_of_mem_leaders h
  ⟨List.mem_zipIdx_iff_getElem?.1 hmem, hblank⟩

/-- What is no plain memory is hashed alone. -/
theorem eq_of_mem_hashedFields {stop : Field × Nat} (hstop : stop ∈ table.hashedFields ty)
    (hother : table.isMemory stop.1.ty = false) (hi : stop.2 ≤ i)
    (hlt : i < table.hashedUpTo ty stop.2) (hfield : (table.fields ty)[i]? = some field) :
    stop = (field, i) := by
  obtain ⟨first, start⟩ := stop
  obtain ⟨hstart, _⟩ := of_mem_hashedFields hstop
  rw [hashedUpTo_eq hstart, hother, if_neg Bool.false_ne_true] at hlt
  obtain rfl : i = start := Nat.le_antisymm (Nat.le_of_lt_succ hlt) hi
  rw [hfield] at hstart
  cases hstart
  rfl

theorem pairwise_hashedFields (table : TypeTable) (ty : TypeId) :
    (table.hashedFields ty).Pairwise fun a b => table.hashedUpTo ty a.2 ≤ b.2 :=
  pairwise_leaders fun stop _ _ => table.lt_hashedUpTo ty stop.2

/-- Every field with a name is hashed, alone or together with an earlier one. -/
theorem exists_hashedField (hi : (table.fields ty)[i]? = some field)
    (hblank : field.isBlank = false) :
    ∃ stop ∈ table.hashedFields ty, stop.2 ≤ i ∧ i < table.hashedUpTo ty stop.2 :=
  exists_leader_zipIdx (fun stop _ _ => table.lt_hashedUpTo ty stop.2) hi hblank

theorem forall₂_of_mapM_eq_ok {ε α β : Type} {f : α → Except ε β} {l : List α} {bs : List β}
    (h : l.mapM f = .ok bs) : l.Forall₂ (fun a b => f a = .ok b) bs := by
  induction l generalizing bs with
  | nil =>
    cases h
    exact .nil
  | cons a l ih =>
    rw [List.mapM_cons] at h
    obtain ⟨b, hb, h⟩ := bind_eq_ok_iff.1 h
    obtain ⟨rest, hrest, h⟩ := bind_eq_ok_iff.1 h
    cases h
    exact .cons hb (ih hrest)

theorem hashedBy_of_hashField {stmt : Stmt} (h : table.hashField ty field i = .ok stmt) :
    HashedBy table ty (field, i) stmt := by
  unfold hashField at h
  split at h
  · next hmemory =>
    cases h
    exact .run hmemory
  · next hmemory =>
    obtain ⟨callee, hcallee, h⟩ := bind_eq_ok_iff.1 h
    cases h
    exact .alone (Bool.not_eq_true _ ▸ hmemory) hcallee

namespace Coherent

variable (h : Coherent table) (hget : table.get ty = .ok e)
include h hget

/-- What is hashed together with a field of plain memory is its run. -/
theorem run_of_mem_hashedFields (hmem : (field, i) ∈ table.hashedFields ty)
    (hmemory : table.isMemory field.ty = true) :
    table.hashedUpTo ty i = (table.memoryRun ty i).next ∧
      IsMaximal table ty i (table.memoryRun ty i) := by
  obtain ⟨hi, hblank⟩ := of_mem_hashedFields hmem
  rw [hashedUpTo_eq hi, if_pos hmemory]
  exact ⟨rfl, h.memoryRun_isMaximal hget (isPlainField_iff.2 ⟨field, hi, hblank, hmemory⟩)⟩

/-- Fields that are hashed together are all plain memory, or there is only one. -/
theorem isMemory_eq_of_hashed {stop : Field × Nat} (hstop : stop ∈ table.hashedFields ty)
    (hi : stop.2 ≤ i) (hlt : i < table.hashedUpTo ty stop.2)
    (hfield : (table.fields ty)[i]? = some field) :
    table.isMemory stop.1.ty = table.isMemory field.ty := by
  cases hmemory : table.isMemory stop.1.ty with
  | true =>
    obtain ⟨hupTo, hrun⟩ := h.run_of_mem_hashedFields hget hstop hmemory
    exact (hrun.field_plain hi (hupTo ▸ hlt) hfield).2.symm
  | false =>
    rw [eq_of_mem_hashedFields hstop hmemory hi hlt hfield] at hmemory
    exact hmemory.symm

/-- The runs of a hash function are made up of all fields of plain memory with a name. -/
theorem flatMap_runs :
    (((table.hashedFields ty).filter fun stop => table.isMemory stop.1.ty).flatMap fun stop =>
      List.range' stop.2 ((table.memoryRun ty stop.2).next - stop.2)) =
    (List.range (table.fields ty).length).filter (table.isPlainField ty) := by
  -- Both lists are increasing, so all that matters is what is in them.
  refine List.Pairwise.eq_of_mem_iff (r := (· < ·)) ?_ (List.pairwise_lt_range.filter _) fun i => ?_
  · rw [List.pairwise_flatMap]
    refine ⟨fun stop _ => List.pairwise_lt_range', ?_⟩
    refine ((pairwise_hashedFields table ty).filter _).imp_of_mem fun {a b} ha hb hle => ?_
    obtain ⟨hstop, hmemory⟩ := List.mem_filter.1 ha
    obtain ⟨hupTo, _⟩ := h.run_of_mem_hashedFields hget hstop hmemory
    intro i hi j hj
    rw [List.mem_range'_1] at hi hj
    omega
  · rw [List.mem_flatMap, List.mem_filter, List.mem_range]
    constructor
    · rintro ⟨stop, hstop, hi⟩
      obtain ⟨hstop, hmemory⟩ := List.mem_filter.1 hstop
      obtain ⟨_, hrun⟩ := h.run_of_mem_hashedFields hget hstop hmemory
      rw [List.mem_range'_1] at hi
      have hle := hrun.le
      exact ⟨by omega, hrun.plain i hi.1 (by omega)⟩
    · rintro ⟨_, hplain⟩
      obtain ⟨field, hfield, hblank, hmemory⟩ := isPlainField_iff.1 hplain
      obtain ⟨stop, hstop, hi, hlt⟩ := exists_hashedField hfield hblank
      have hsame := (h.isMemory_eq_of_hashed hget hstop hi hlt hfield).trans hmemory
      obtain ⟨hupTo, _⟩ := h.run_of_mem_hashedFields hget hstop hsame
      refine ⟨stop, List.mem_filter.2 ⟨hstop, hsame⟩, ?_⟩
      rw [List.mem_range'_1]
      omega

/-- The other fields with a name are hashed alone. -/
theorem map_others :
    ((table.hashedFields ty).filter fun stop => !table.isMemory stop.1.ty).map (·.2) =
    (List.range (table.fields ty).length).filter (table.isOtherField ty) := by
  refine List.Pairwise.eq_of_mem_iff (r := (· < ·)) ?_ (List.pairwise_lt_range.filter _) fun i => ?_
  · rw [List.pairwise_map]
    refine ((pairwise_hashedFields table ty).filter _).imp fun {a b} hle => ?_
    exact Nat.lt_of_lt_of_le (table.lt_hashedUpTo ty a.2) hle
  · rw [List.mem_map, List.mem_filter, List.mem_range]
    constructor
    · rintro ⟨⟨field, _⟩, hstop, rfl⟩
      obtain ⟨hstop, hother⟩ := List.mem_filter.1 hstop
      rw [Bool.not_eq_true'] at hother
      obtain ⟨hi, hblank⟩ := of_mem_hashedFields hstop
      exact ⟨(List.getElem?_eq_some_iff.1 hi).1, isOtherField_iff.2 ⟨field, hi, hblank, hother⟩⟩
    · rintro ⟨_, hother⟩
      obtain ⟨field, hfield, hblank, hother⟩ := isOtherField_iff.1 hother
      obtain ⟨stop, hstop, hi, hlt⟩ := exists_hashedField hfield hblank
      have hsame := (h.isMemory_eq_of_hashed hget hstop hi hlt hfield).trans hother
      obtain rfl := eq_of_mem_hashedFields hstop hsame hi hlt hfield
      exact ⟨_, List.mem_filter.2 ⟨hstop, by rw [hother]; rfl⟩, rfl⟩

/-- A struct is hashed by the runs of its fields. -/
theorem hashesByRuns {name : Option String} {members : List Member}
    (hkind : e.kind = .struct name members) : HashesByRuns table ty where
  starts := rfl
  goesOn i field hi := by
    rw [hashedFrom, leaders_zipIdx hi (table.lt_hashedUpTo ty i), hashedUpTo_eq hi]
    rfl
  ends i hle := leaders_zipIdx_eq_nil hle
  runs := h.flatMap_runs hget
  others := h.map_others hget
  code steps hsteps := by
    unfold hashSteps at hsteps
    rw [kind_of_get hget, hkind] at hsteps
    exact (forall₂_of_mapM_eq_ok hsteps).imp fun _ _ => hashedBy_of_hashField

end Coherent

theorem get_of_kind_eq_struct {name : Option String} {members : List Member}
    (hkind : table.kind ty = .struct name members) :
    ∃ e, table.get ty = .ok e ∧ e.kind = .struct name members := by
  cases hget : table.get ty with
  | ok e => exact ⟨e, rfl, kind_of_get hget ▸ hkind⟩
  | error f =>
    rw [kind, entry, hget] at hkind
    cases hkind

/-- Every run of plain memory in a struct is one that cannot be extended, and a hash function goes
    through the fields of a struct from run to run. -/
theorem memory_runs_maximal {name : Option String} {members : List Member} (h : Grown table)
    (hkind : table.kind ty = .struct name members) :
    (∀ start, table.isPlainField ty start = true →
      IsMaximal table ty start (table.memoryRun ty start)) ∧ HashesByRuns table ty := by
  obtain ⟨e, hget, hkind⟩ := get_of_kind_eq_struct hkind
  exact ⟨fun _ hplain => h.coherent.memoryRun_isMaximal hget hplain,
    h.coherent.hashesByRuns hget hkind⟩

/-- The fields of a struct whose runs end for all the reasons there are. -/
def runsMembers : List Member :=
  [⟨some "a", ⟨2⟩⟩, ⟨some "b", ⟨2⟩⟩, ⟨some "c", ⟨3⟩⟩, ⟨some "s", ⟨14⟩⟩, ⟨none, ⟨1⟩⟩, ⟨some "d", ⟨1⟩⟩,
    ⟨some "e", ⟨1⟩⟩, ⟨some "f", ⟨1⟩⟩, ⟨some "g", ⟨3⟩⟩, ⟨none, ⟨3⟩⟩, ⟨some "h", ⟨1⟩⟩, ⟨some "i", ⟨2⟩⟩]

/-- This struct, on a machine that loads from aligned addresses only. -/
def runsTable : TypeTable :=
  ofKinds .mips [.struct none runsMembers]

/-- Runs end at the alignment of the struct, before a string, at the alignments of the offsets 17 and
    18, before a blank field, before unused bytes, and at the end. -/
theorem memory_runs_maximal_strict :
    Grown runsTable ∧ runsTable.kind ⟨32⟩ = .struct none runsMembers ∧
    runsTable.isPlainField ⟨32⟩ 6 = true ∧
    IsMaximal runsTable ⟨32⟩ 6 (runsTable.memoryRun ⟨32⟩ 6) ∧ HashesByRuns runsTable ⟨32⟩ ∧
    (((runsTable.hashedFields ⟨32⟩).filter fun stop => runsTable.isMemory stop.1.ty).map fun stop =>
        (stop.2, runsTable.memoryRun ⟨32⟩ stop.2)) =
      [(0, ⟨4, 2⟩), (2, ⟨4, 3⟩), (5, ⟨1, 6⟩), (6, ⟨2, 8⟩), (8, ⟨4, 9⟩), (10, ⟨1, 11⟩), (11, ⟨2, 12⟩)] := by
  have hgrown : Grown runsTable := (built_ofKinds (by decide +kernel)).grown
  have hkind : runsTable.kind ⟨32⟩ = .struct none runsMembers := by decide +kernel
  have hplain : runsTable.isPlainField ⟨32⟩ 6 = true := by decide +kernel
  obtain ⟨hmaximal, hhashes⟩ := memory_runs_maximal hgrown hkind
  exact ⟨hgrown, hkind, hplain, hmaximal 6 hplain, hhashes, by decide +kernel⟩

end TypeTable

end HashEq
