import HashEq.Proofs.Machine.Leafwise

/-!
# Reading images

What can be read as a value can be read leaf by leaf. So comparing images ends with a
truth value and hashing one with a state, but for the panics that interfaces lead to.

* `Readable.fits`: every leaf can be read;
* `Leaf.equal_isOk`, `Leaf.hash_isOk`: only interfaces keep a leaf from being compared
  and hashed;
* `Leaves.equalVia_isOk`, `Leaves.hashVia_isOk`: types whose comparison cannot panic;
* `Leaves.equalWithin_answers`, `Leaves.hashWithin_answers`: images can be compared and
  hashed, unless there is a panic.
-/

namespace HashEq

open TypeTable

variable {table : TypeTable} {arena : Arena} {ty : TypeId} {e : Entry} {p q seed : Word} {n : Nat}

/-! ### Words -/

/-- The number in the `width` bytes from `p` on. -/
def Arena.wordAt (arena : Arena) (p width : Word) : Word :=
  wordOfBytes (arena.bytesAt p width.toNat)

theorem readWord_eq_wordAt {width : Word} (hp : arena.inBounds p width.toNat = true)
    (hwidth : width.toNat ≤ 8) :
    arena.readWord p width = .ok (arena.wordAt p width) := by
  have hlength := Arena.length_bytesAt hp
  have hread := Arena.read_eq hp rfl
  unfold Arena.wordAt
  generalize arena.bytesAt p width.toNat = bytes at hlength hread ⊢
  rw [← hlength] at hwidth
  simp only [Arena.readWord, hread, bind, Except.bind, hwidth, if_true]
  rfl

theorem loadPair_eq_wordAt (hpointer : table.target.pointerSize.toNat ≤ 8)
    (hp : arena.inBounds p (2 * table.target.pointerSize.toNat) = true) :
    Primitives.loadPair table arena p = .ok (arena.wordAt p table.target.pointerSize,
      arena.wordAt (p + table.target.pointerSize) table.target.pointerSize) := by
  have hp' : arena.inBounds (p + table.target.pointerSize) table.target.pointerSize.toNat = true :=
    Arena.inBounds_add hp (by omega)
  have hfirst := readWord_eq_wordAt (Arena.inBounds_mono hp (by omega)) hpointer
  have hsecond := readWord_eq_wordAt hp' hpointer
  generalize arena.wordAt p table.target.pointerSize = first at hfirst ⊢
  generalize arena.wordAt _ table.target.pointerSize = second at hsecond ⊢
  rw [Primitives.loadPair, Primitives.loadWord, hfirst, Arena.add_eq_ok hp (by omega)]
  change (Primitives.loadWord table arena (p + table.target.pointerSize) >>= _) = _
  rw [Primitives.loadWord, hsecond]
  rfl

theorem readWord_isOk {width : Word} (hp : arena.inBounds p width.toNat = true)
    (hwidth : width.toNat ≤ 8) : ∃ word, arena.readWord p width = .ok word :=
  ⟨_, readWord_eq_wordAt hp hwidth⟩

theorem loadPair_isOk (hpointer : table.target.pointerSize.toNat ≤ 8)
    (hp : arena.inBounds p (2 * table.target.pointerSize.toNat) = true) :
    ∃ first second, Primitives.loadPair table arena p = .ok (first, second) :=
  ⟨_, _, loadPair_eq_wordAt hpointer hp⟩

/-! ### Leaves -/

/-- A leaf can be read at an address. -/
def Leaf.Fits (table : TypeTable) (arena : Arena) (p : Word) : Leaf → Prop
  | block size => arena.inBounds p size.toNat = true
  | float format => format.width.toNat ≤ 8 ∧ arena.inBounds p format.width.toNat = true
  | complex format => format.width.toNat ≤ 8 ∧ arena.inBounds p (2 * format.width.toNat) = true
  | string | interface => arena.inBounds p (2 * table.target.pointerSize.toNat) = true

/-- Strings and interfaces are two words, and aligned like one. -/
theorem layout_pair (h : Lawful table) (hget : table.get ty = .ok e)
    (hkind : e.kind = .string ∨ e.kind.isInterface = true) :
    e.size.toNat = 2 * table.target.pointerSize.toNat ∧ e.align = table.target.pointerSize := by
  have hlayout := (h.laidOut hget).layout
  cases hkind' : e.kind with
  | string | any | interface _ =>
    rw [hkind'] at hlayout
    obtain ⟨size, hsize, hlayout⟩ := bind_eq_ok_iff.1 hlayout
    have heq : (⟨[], size, table.target.pointerSize⟩ : Layout) = e.toLayout :=
      Except.ok.inj hlayout
    rw [← heq]
    exact ⟨Word.toNat_of_mul hsize, rfl⟩
  | _ =>
    rw [hkind'] at hkind
    rcases hkind with hkind | hkind <;> cases hkind

/-- A type without parts can be read as the leaf that it is. -/
theorem fits_leafOf (h : Lawful table) (hget : table.get ty = .ok e)
    (hkind : e.kind.isLeaf = true ∨ e.kind.isInterface = true)
    (hp : arena.inBounds p e.size.toNat = true) : (leafOf e).Fits table arena p := by
  have hlayout := (h.laidOut hget).layout
  have hlaid := (h.laidOut hget).base
  have hsize : ∀ {size align : Word}, (⟨[], size, align⟩ : Layout) = e.toLayout →
      size.toNat = e.size.toNat := fun heq => by rw [← heq]
  cases hkind' : e.kind with
  | array _ _ | struct _ _ =>
    rw [hkind'] at hkind
    rcases hkind with hkind | hkind <;> cases hkind
  | float32 | float64 | complex64 | complex128 =>
    rw [hkind'] at hlaid hlayout
    rw [← hsize (Except.ok.inj hlayout)] at hp
    rw [leafOf, hlaid]
    exact ⟨by decide, hp⟩
  | string =>
    rw [(layout_pair h hget (.inl hkind')).1] at hp
    rw [hkind'] at hlaid
    rw [leafOf, hlaid]
    exact hp
  | any | interface _ =>
    rw [(layout_pair h hget (.inr (by rw [hkind']; rfl))).1] at hp
    rw [hkind'] at hlaid
    rw [leafOf, hlaid]
    exact hp
  | _ =>
    rw [hkind'] at hlaid
    rw [leafOf, hlaid]
    exact hp

/-- What can be read as a value can be read leaf by leaf. -/
theorem Readable.fits {ty : TypeId} {p offset : Word} {leaf : Leaf} (h : Lawful table)
    (hp : Readable table arena ty p) (hmem : (offset, leaf) ∈ table.leaves ty) :
    leaf.Fits table arena (p + offset) := by
  -- Plain memory is a single leaf at the address itself, however many parts it has.
  have hmemory : ∀ {ty e p offset}, table.get ty = .ok e → e.base = .memory →
      Readable table arena ty p → (offset, leaf) ∈ table.leaves ty →
      leaf.Fits table arena (p + offset) := by
    intro ty e p offset hget hbase hp hmem
    have hbounds := hp.bounds
    rw [sizeOf_of_get hget] at hbounds
    rw [leaves_memory hget hbase, List.mem_singleton, Prod.mk.injEq] at hmem
    rw [hmem.1, hmem.2, UInt64.add_zero]
    exact hbounds
  induction ty using byParts table generalizing p offset with
  | missing ty f hget =>
    rw [leaves_missing hget] at hmem
    cases hmem
  | leaf ty e hget hkind =>
    by_cases hbase : e.base = .memory
    · exact hmemory hget hbase hp hmem
    have hbounds := hp.bounds
    rw [sizeOf_of_get hget] at hbounds
    rw [leaves_leaf hget hbase hkind, List.mem_singleton, Prod.mk.injEq] at hmem
    rw [hmem.1, hmem.2, UInt64.add_zero]
    exact fits_leafOf h hget hkind hbounds
  | array ty e elem len hget hkind ih =>
    by_cases hbase : e.base = .memory
    · exact hmemory hget hbase hp hmem
    rw [leaves_array hget hbase hkind, mem_elements] at hmem
    obtain ⟨i, hi, inner, hinner, rfl⟩ := hmem
    rw [← UInt64.add_assoc]
    exact ih (hp.elem h hget hbase hkind hi) hinner
  | struct ty e name members hget hkind ih =>
    by_cases hbase : e.base = .memory
    · exact hmemory hget hbase hp hmem
    rw [leaves_struct hget hbase hkind, mem_fields] at hmem
    obtain ⟨field, hf, hblank, inner, hinner, rfl⟩ := hmem
    rw [← UInt64.add_assoc]
    exact ih field hf (hp.field h hget hbase hf hblank) hinner

/-- Strings and interfaces of what can be read as a value can be loaded. -/
theorem Readable.loadPair_isOk {offset : Word} {leaf : Leaf} (h : Lawful table)
    (hpointer : table.target.pointerSize.toNat ≤ 8) (hp : Readable table arena ty p)
    (hmem : (offset, leaf) ∈ table.leaves ty) (hleaf : leaf = .string ∨ leaf = .interface) :
    ∃ first second, Primitives.loadPair table arena (p + offset) = .ok (first, second) := by
  have hfits := hp.fits h hmem
  rcases hleaf with rfl | rfl <;> exact HashEq.loadPair_isOk hpointer hfits

/-! ### Comparing leaves -/

theorem floatEqual_isOk {format : FloatFormat} (hwidth : format.width.toNat ≤ 8)
    (hp : arena.inBounds p format.width.toNat = true)
    (hq : arena.inBounds q format.width.toNat = true) :
    ∃ b, Primitives.floatEqual arena format p q = .ok b := by
  obtain ⟨a, ha⟩ := readWord_isOk hp hwidth
  obtain ⟨b, hb⟩ := readWord_isOk hq hwidth
  rw [Primitives.floatEqual, ha, hb]
  exact ⟨_, rfl⟩

theorem complexEqual_isOk {format : FloatFormat} (hwidth : format.width.toNat ≤ 8)
    (hp : arena.inBounds p (2 * format.width.toNat) = true)
    (hq : arena.inBounds q (2 * format.width.toNat) = true) :
    ∃ b, Primitives.complexEqual arena format p q = .ok b := by
  obtain ⟨a, ha⟩ := floatEqual_isOk hwidth (Arena.inBounds_mono hp (by omega))
    (Arena.inBounds_mono hq (by omega))
  have himaginary : ∀ {p : Word}, arena.inBounds p (2 * format.width.toNat) = true →
      arena.inBounds (p + format.width) format.width.toNat = true :=
    fun hp => Arena.inBounds_add hp (by omega)
  obtain ⟨b, hb⟩ := floatEqual_isOk hwidth (himaginary hp) (himaginary hq)
  rw [Primitives.complexEqual, ha, Arena.add_eq_ok hp (by omega), Arena.add_eq_ok hq (by omega)]
  cases a with
  | false => exact ⟨false, rfl⟩
  | true => exact ⟨b, hb⟩

/-- Numbers and strings that can be read can be compared. -/
theorem Leaf.equal_isOk {leaf : Leaf} (hleaf : leaf ≠ .interface)
    (hpointer : table.target.pointerSize.toNat ≤ 8)
    (hp : leaf.Fits table arena p) (hq : leaf.Fits table arena q)
    (hpString : ∀ data len, leaf = .string → Primitives.loadPair table arena p = .ok (data, len) →
      arena.inBounds data len.toNat = true)
    (hqString : ∀ data len, leaf = .string → Primitives.loadPair table arena q = .ok (data, len) →
      arena.inBounds data len.toNat = true)
    (dynamic : TypeId → Word → Word → Except EvalError Bool) :
    ∃ b, leaf.equal table arena dynamic p q = .ok b := by
  cases leaf with
  | block size => exact ⟨_, Primitives.memoryEqual_eq hp hq rfl⟩
  | float format => exact floatEqual_isOk hp.1 hp.2 hq.2
  | complex format => exact complexEqual_isOk hp.1 hp.2 hq.2
  | string =>
    obtain ⟨pData, pLen, hpLoad⟩ := loadPair_isOk hpointer hp
    obtain ⟨qData, qLen, hqLoad⟩ := loadPair_isOk hpointer hq
    have hpData := hpString pData pLen rfl hpLoad
    have hqData := hqString qData qLen rfl hqLoad
    rw [Leaf.equal, Primitives.stringEqual, hpLoad, hqLoad]
    change ∃ b, (if pLen = qLen then _ else _) = _
    split
    · next heq =>
      rw [← heq] at hqData
      exact ⟨_, Primitives.memoryEqual_eq hpData hqData rfl⟩
    · exact ⟨false, rfl⟩
  | interface => exact absurd rfl hleaf

/-! ### Hashing leaves -/

theorem floatHash_isOk {format : FloatFormat} (hwidth : format.width.toNat ≤ 8)
    (hp : arena.inBounds p format.width.toNat = true) (seed : Word) :
    ∃ state, Primitives.floatHash arena format p seed = .ok state := by
  obtain ⟨bits, hbits⟩ := readWord_isOk hp hwidth
  rw [Primitives.floatHash, hbits]
  change ∃ state, (if format.isZero bits = true then _ else _) = _
  split
  · exact ⟨_, rfl⟩
  · exact ⟨_, Primitives.memoryHash_eq hp rfl seed⟩

theorem complexHash_isOk {format : FloatFormat} (hwidth : format.width.toNat ≤ 8)
    (hp : arena.inBounds p (2 * format.width.toNat) = true) (seed : Word) :
    ∃ state, Primitives.complexHash arena format p seed = .ok state := by
  obtain ⟨state, hreal⟩ := floatHash_isOk hwidth (Arena.inBounds_mono hp (by omega)) seed
  have hp' : arena.inBounds (p + format.width) format.width.toNat = true :=
    Arena.inBounds_add hp (by omega)
  obtain ⟨state', himaginary⟩ := floatHash_isOk hwidth hp' state
  rw [Primitives.complexHash, hreal, Arena.add_eq_ok hp (by omega)]
  exact ⟨state', himaginary⟩

/-- Numbers and strings that can be read can be hashed. -/
theorem Leaf.hash_isOk {leaf : Leaf} (hleaf : leaf ≠ .interface)
    (hpointer : table.target.pointerSize.toNat ≤ 8) (hp : leaf.Fits table arena p)
    (hpString : ∀ data len, leaf = .string → Primitives.loadPair table arena p = .ok (data, len) →
      arena.inBounds data len.toNat = true)
    (dynamic : TypeId → Word → Word → Except EvalError Word) (seed : Word) :
    ∃ state, leaf.hash table arena dynamic p seed = .ok state := by
  cases leaf with
  | block size => exact ⟨_, Primitives.memoryHash_eq hp rfl seed⟩
  | float format => exact floatHash_isOk hp.1 hp.2 seed
  | complex format => exact complexHash_isOk hp.1 hp.2 seed
  | string =>
    obtain ⟨data, len, hload⟩ := loadPair_isOk hpointer hp
    rw [Leaf.hash, Primitives.stringHash, hload]
    exact ⟨_, Primitives.memoryHash_eq (hpString data len rfl hload) rfl seed⟩
  | interface => exact absurd rfl hleaf

/-! ### Comparisons that cannot panic -/

/-- Checks that all have an outcome have one together. -/
theorem conj_isOk {ε α : Type} {l : List α} {v : α → Except ε Bool} (hv : ∀ a ∈ l, ∃ b, v a = .ok b) :
    ∃ b, conj (l.map v) = .ok b := by
  induction l with
  | nil => exact ⟨true, rfl⟩
  | cons a l ih =>
    obtain ⟨b, hb⟩ := hv a List.mem_cons_self
    rw [List.map_cons, conj_cons, hb]
    cases b with
    | false => exact ⟨false, rfl⟩
    | true => exact ih fun a ha => hv a (List.mem_cons_of_mem _ ha)

/-- Steps that can all be made can be made one after the other. -/
theorem foldlM_isOk {ε α σ : Type} {step : σ → α → Except ε σ} {l : List α}
    (h : ∀ state, ∀ a ∈ l, ∃ next, step state a = .ok next) (state : σ) :
    ∃ last, l.foldlM step state = .ok last := by
  induction l generalizing state with
  | nil => exact ⟨state, rfl⟩
  | cons a l ih =>
    obtain ⟨next, hnext⟩ := h state a List.mem_cons_self
    rw [List.foldlM_cons, hnext]
    exact ih (fun state b hb => h state b (List.mem_cons_of_mem a hb)) next

section Flags

variable (h : Lawful table) (hget : table.get ty = .ok e)
include h hget

theorem canPanic_elem {elem : TypeId} {len : Word} (hkind : e.kind = .array elem len) :
    table.canPanic ty = table.canPanic elem := by
  have hflags := (h.laidOut hget).flags
  rw [hkind] at hflags
  rw [canPanic, flags, entry_of_get hget, hflags]
  rfl

theorem canPanic_field {field : Field} (hf : field ∈ e.fields) (hblank : field.isBlank = false)
    (hpanic : table.canPanic ty = false) : table.canPanic field.ty = false := by
  obtain ⟨name, members, hkind⟩ := h.isStruct_of_mem hget hf
  have hflags := (h.laidOut hget).flags
  rw [hkind] at hflags
  rw [canPanic, flags, entry_of_get hget, hflags] at hpanic
  have hfield := List.any_eq_false.1 hpanic field hf
  rwa [hblank, Bool.not_false, Bool.true_and, Bool.not_eq_true] at hfield

theorem canPanic_of_isInterface (hkind : e.kind.isInterface = true) : table.canPanic ty = true := by
  have hflags := (h.laidOut hget).flags
  rw [canPanic, flags, entry_of_get hget, hflags]
  cases hkind' : e.kind with
  | any | interface _ => rfl
  | _ =>
    rw [hkind'] at hkind
    cases hkind

theorem canPanic_of_isString (hstring : table.isString ty = true) : table.canPanic ty = false := by
  have hflags := (h.laidOut hget).flags
  rw [isString, kind_of_get hget, beq_iff_eq] at hstring
  rw [hstring] at hflags
  rw [canPanic, flags, entry_of_get hget, hflags]
  rfl

end Flags

/-- A type whose comparison cannot panic has no interfaces that count. -/
theorem interface_not_mem_leaves {ty : TypeId} {offset : Word} (h : Lawful table)
    (hpanic : table.base ty = .memory ∨ table.canPanic ty = false) :
    (offset, Leaf.interface) ∉ table.leaves ty := by
  intro hmem
  -- Plain memory is a single leaf, which is no interface.
  have hmemory : ∀ {ty e offset}, table.get ty = .ok e → e.base = .memory →
      (offset, Leaf.interface) ∉ table.leaves ty := by
    intro ty e offset hget hbase hmem
    rw [leaves_memory hget hbase, List.mem_singleton] at hmem
    cases hmem
  induction ty using byParts table generalizing offset with
  | missing ty f hget =>
    rw [leaves_missing hget] at hmem
    cases hmem
  | leaf ty e hget hkind =>
    by_cases hbase : e.base = .memory
    · exact hmemory hget hbase hmem
    rw [leaves_leaf hget hbase hkind, List.mem_singleton, Prod.mk.injEq] at hmem
    rcases hkind with hkind | hkind
    · exact Structural.leafOf_ne_interface h hget hkind hmem.2.symm
    · rw [base_of_get hget, canPanic_of_isInterface h hget hkind] at hpanic
      exact Bool.noConfusion (hpanic.resolve_left hbase)
  | array ty e elem len hget hkind ih =>
    by_cases hbase : e.base = .memory
    · exact hmemory hget hbase hmem
    rw [base_of_get hget] at hpanic
    have hcalm := hpanic.resolve_left hbase
    rw [canPanic_elem h hget hkind] at hcalm
    rw [leaves_array hget hbase hkind, mem_elements] at hmem
    obtain ⟨i, _, inner, hinner, _⟩ := hmem
    exact ih (.inr hcalm) hinner
  | struct ty e name members hget hkind ih =>
    by_cases hbase : e.base = .memory
    · exact hmemory hget hbase hmem
    rw [base_of_get hget] at hpanic
    rw [leaves_struct hget hbase hkind, mem_fields] at hmem
    obtain ⟨field, hf, hblank, inner, hinner, _⟩ := hmem
    exact ih field hf (.inr (canPanic_field h hget hf hblank (hpanic.resolve_left hbase))) hinner

/-- What can be read as two values of a type can be compared if that cannot panic. -/
theorem Leaves.equalVia_isOk (h : Lawful table) (hpointer : table.target.pointerSize.toNat ≤ 8)
    (hpanic : table.base ty = .memory ∨ table.canPanic ty = false)
    (hp : Readable table arena ty p) (hq : Readable table arena ty q)
    (dynamic : TypeId → Word → Word → Except EvalError Bool) :
    ∃ b, equalVia table arena dynamic ty p q = .ok b := by
  refine conj_isOk fun (offset, leaf) hmem => ?_
  refine Leaf.equal_isOk ?_ hpointer (hp.fits h hmem) (hq.fits h hmem) ?_ ?_ dynamic
  · rintro rfl
    exact interface_not_mem_leaves h hpanic hmem
  · rintro data len rfl hload
    exact hp.strings hmem hload
  · rintro data len rfl hload
    exact hq.strings hmem hload

/-- What can be read as a value of such a type can be hashed. -/
theorem Leaves.hashVia_isOk (h : Lawful table) (hpointer : table.target.pointerSize.toNat ≤ 8)
    (hpanic : table.base ty = .memory ∨ table.canPanic ty = false)
    (hp : Readable table arena ty p)
    (dynamic : TypeId → Word → Word → Except EvalError Word) (seed : Word) :
    ∃ state, hashVia table arena dynamic ty p seed = .ok state := by
  refine foldlM_isOk (fun state (offset, leaf) hmem => ?_) seed
  refine Leaf.hash_isOk ?_ hpointer (hp.fits h hmem) ?_ dynamic state
  · rintro rfl
    exact interface_not_mem_leaves h hpanic hmem
  · rintro data len rfl hload
    exact hp.strings hmem hload

/-! ### Comparing and hashing images -/

/-- There is an answer, unless there is a panic. -/
def Answers {α : Type} (x : Except EvalError α) : Prop :=
  (∃ a, x = .ok a) ∨ ∃ text, x = .error (.panic text)

namespace Answers

variable {α β : Type} {x : Except EvalError α}

theorem ok (a : α) : Answers (.ok a) := .inl ⟨a, rfl⟩

theorem bind {next : α → Except EvalError β} (hx : Answers x)
    (hnext : ∀ a, x = .ok a → Answers (next a)) : Answers (x >>= next) := by
  rcases hx with ⟨a, rfl⟩ | ⟨text, rfl⟩
  · exact hnext a rfl
  · exact .inr ⟨text, rfl⟩

theorem conj {l : List α} {v : α → Except EvalError Bool} (hv : ∀ a ∈ l, Answers (v a)) :
    Answers (conj (l.map v)) := by
  induction l with
  | nil => exact .ok true
  | cons a l ih =>
    rw [List.map_cons, conj_cons]
    refine (hv a List.mem_cons_self).bind fun b _ => ?_
    cases b with
    | false => exact .ok false
    | true => exact ih fun a ha => hv a (List.mem_cons_of_mem _ ha)

theorem foldlM {l : List α} {step : β → α → Except EvalError β}
    (hstep : ∀ b, ∀ a ∈ l, Answers (step b a)) (b : β) : Answers (l.foldlM step b) := by
  induction l generalizing b with
  | nil => exact .ok b
  | cons a l ih =>
    rw [List.foldlM_cons]
    exact (hstep b a List.mem_cons_self).bind fun b _ =>
      ih (fun b a ha => hstep b a (List.mem_cons_of_mem _ ha)) b

end Answers

/-- The type that an interface tells is known, unless there is a panic. -/
theorem dynamicType_answers (h : Lawful table) {refuse : String → EvalError}
    (hrefuse : ∀ text, ∃ reason, refuse text = .panic reason) {word : Word}
    (htold : ∃ dynamic, typeOfWord word = .ok dynamic ∧ table.Has dynamic) :
    Answers (Structural.dynamicType table refuse word) := by
  obtain ⟨dynamic, htold, hhas⟩ := htold
  rw [dynamicType_eq h refuse htold hhas]
  split
  · obtain ⟨reason, hreason⟩ := hrefuse (table.shape dynamic).text
    exact .inr ⟨reason, by rw [hreason]⟩
  · exact .ok dynamic

namespace Leaves

/-- Comparing images ends with a truth value or a panic. -/
theorem equalWithin_answers (h : Lawful table) (hpointer : table.target.pointerSize.toNat ≤ 8)
    (hp : ImageWithin table arena n ty p) (hq : ImageWithin table arena n ty q) :
    Answers (equalWithin table arena n ty p q) := by
  induction n generalizing ty p q with
  | zero => exact hp.elim
  | succ n ih =>
    refine .conj fun (offset, leaf) hmem => ?_
    by_cases hleaf : leaf = .interface
    · rw [hleaf] at hmem ⊢
      obtain ⟨pWord, pData, hpLoad⟩ := hp.readable.loadPair_isOk h hpointer hmem (.inr rfl)
      obtain ⟨qWord, qData, hqLoad⟩ := hq.readable.loadPair_isOk h hpointer hmem (.inr rfl)
      rw [Leaf.equal_interface hpLoad hqLoad]
      split
      · exact .ok false
      split
      · exact .ok true
      next hsame hzero =>
      have hsame := Decidable.not_not.1 hsame
      refine (dynamicType_answers h (fun _ => ⟨_, rfl⟩)
        (hp.readable.interfaces hmem hpLoad hzero)).bind fun inner htype => ?_
      obtain ⟨htold, _, hne⟩ := of_dynamicType htype
      exact ih (hp.2 inner pData ⟨offset, pWord, hmem, hpLoad, hzero, htold, hne⟩)
        (hq.2 inner qData ⟨offset, qWord, hmem, hqLoad, hsame ▸ hzero, hsame ▸ htold, hne⟩)
    · refine .inl (Leaf.equal_isOk hleaf hpointer (hp.readable.fits h hmem)
        (hq.readable.fits h hmem) ?_ ?_ _)
      · rintro data len rfl hload
        exact hp.readable.strings hmem hload
      · rintro data len rfl hload
        exact hq.readable.strings hmem hload

/-- Hashing an image ends with a state or a panic. -/
theorem hashWithin_answers (h : Lawful table) (hpointer : table.target.pointerSize.toNat ≤ 8)
    (hp : ImageWithin table arena n ty p) (seed : Word) :
    Answers (hashWithin table arena n ty p seed) := by
  induction n generalizing ty p seed with
  | zero => exact hp.elim
  | succ n ih =>
    refine .foldlM (fun seed (offset, leaf) hmem => ?_) seed
    by_cases hleaf : leaf = .interface
    · rw [hleaf] at hmem ⊢
      obtain ⟨word, data, hload⟩ := hp.readable.loadPair_isOk h hpointer hmem (.inr rfl)
      rw [Leaf.hash_interface hload]
      split
      · exact .ok seed
      next hzero =>
      refine (dynamicType_answers h (fun _ => ⟨_, rfl⟩)
        (hp.readable.interfaces hmem hload hzero)).bind fun inner htype => ?_
      obtain ⟨htold, _, hne⟩ := of_dynamicType htype
      exact (ih (hp.2 inner data ⟨offset, word, hmem, hload, hzero, htold, hne⟩) _).bind
        fun state _ => .ok _
    · refine .inl (Leaf.hash_isOk hleaf hpointer (hp.readable.fits h hmem) ?_ _ seed)
      rintro data len rfl hload
      exact hp.readable.strings hmem hload

end Leaves

end HashEq
