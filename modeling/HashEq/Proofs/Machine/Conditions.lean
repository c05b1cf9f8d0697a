import HashEq.Proofs.Machine.Reading
import HashEq.Proofs.Machine.Runs

/-!
# Conditions in order

Two structs are equal when all conditions on them hold. Field by field the conditions
come to the comparison of the leaves. Calls are moved behind cheap conditions, but not
across a condition that can panic, and this changes nothing: of the conditions among
which one is moved none fails that is reached.

* `Condition.outcome`: what a condition comes to;
* `conj_fieldConditions`: the conditions at a stop compare the fields that it covers;
* `conj_arrange`: moving calls does not change the outcome;
* `conj_conditions`: the conditions on two structs compare them;
* `conj_passes`: checks at every index can be made in two passes.
-/

namespace HashEq

open TypeTable

/-! ### Strings in two steps -/

section Strings

variable (table : TypeTable) (arena : Arena) (p q : Word)

/-- Compares the lengths of two strings. -/
def sameLength : Except EvalError Bool := do
  let (_, pLen) ← Primitives.loadPair table arena p
  let (_, qLen) ← Primitives.loadPair table arena q
  return pLen == qLen

/-- Compares the bytes of two strings, as many as the first one has. -/
def sameContents : Except EvalError Bool := do
  let (pData, pLen) ← Primitives.loadPair table arena p
  let (qData, _) ← Primitives.loadPair table arena q
  Primitives.memoryEqual arena pData qData pLen

end Strings

section Strings

variable {table : TypeTable} {arena : Arena} {ty : TypeId} {p q pData pLen qData qLen : Word}

section Loaded

variable (hp : Primitives.loadPair table arena p = .ok (pData, pLen))
  (hq : Primitives.loadPair table arena q = .ok (qData, qLen))
include hp hq

theorem sameLength_eq : sameLength table arena p q = .ok (pLen == qLen) := by
  rw [sameLength, hp, hq]
  rfl

theorem sameContents_eq :
    sameContents table arena p q = Primitives.memoryEqual arena pData qData pLen := by
  rw [sameContents, hp, hq]
  rfl

end Loaded

variable (h : Lawful table) (hty : table.Has ty) (hbase : table.base ty = .string)
include h hty hbase

/-- Strings are compared by their lengths and, if these are equal, by their bytes. -/
theorem conj_string (dynamic : TypeId → Word → Word → Except EvalError Bool) :
    conj [sameLength table arena p q, sameContents table arena p q] =
      Leaves.equalVia table arena dynamic ty p q := by
  rw [Leaves.equalVia, leaves_string h hty hbase, List.map_singleton, conj_singleton,
    UInt64.add_zero, UInt64.add_zero, Leaf.equal, Primitives.stringEqual]
  cases hp : Primitives.loadPair table arena p with
  | error e =>
    rw [sameLength, hp]
    rfl
  | ok pPair =>
    cases hq : Primitives.loadPair table arena q with
    | error e =>
      rw [sameLength, hp, hq]
      rfl
    | ok qPair =>
      rw [sameLength_eq hp hq, sameContents_eq hp hq, conj_cons, conj_singleton]
      change (if (pPair.2 == qPair.2) = true then _ else _) = if pPair.2 = qPair.2 then _ else _
      simp only [beq_iff_eq]
      rfl

variable (hpointer : table.target.pointerSize.toNat ≤ 8) (hp : Readable table arena ty p)
  (hq : Readable table arena ty q)
include hpointer hp hq

/-- Strings that can be read as such can be loaded, and so can their bytes. -/
theorem strings_isOk : ∃ pData pLen qData qLen,
    Primitives.loadPair table arena p = .ok (pData, pLen) ∧
    Primitives.loadPair table arena q = .ok (qData, qLen) ∧
    arena.inBounds pData pLen.toNat = true ∧ arena.inBounds qData qLen.toNat = true := by
  have hleaf : (0, Leaf.string) ∈ table.leaves ty := by
    rw [leaves_string h hty hbase]
    exact List.mem_singleton_self _
  obtain ⟨pData, pLen, hpLoad⟩ := hp.loadPair_isOk h hpointer hleaf (.inl rfl)
  obtain ⟨qData, qLen, hqLoad⟩ := hq.loadPair_isOk h hpointer hleaf (.inl rfl)
  have hpData := hp.strings hleaf hpLoad
  have hqData := hq.strings hleaf hqLoad
  rw [UInt64.add_zero] at hpLoad hqLoad
  exact ⟨pData, pLen, qData, qLen, hpLoad, hqLoad, hpData, hqData⟩

/-- The lengths of strings can be compared, and so can their bytes if they are equally long. -/
theorem same_isOk : ∃ b b', sameLength table arena p q = .ok b ∧
    (b = true → sameContents table arena p q = .ok b') := by
  obtain ⟨pData, pLen, qData, qLen, hpLoad, hqLoad, hpData, hqData⟩ :=
    strings_isOk h hty hbase hpointer hp hq
  refine ⟨pLen == qLen, arena.bytesAt pData pLen.toNat == arena.bytesAt qData pLen.toNat,
    sameLength_eq hpLoad hqLoad, fun heq => ?_⟩
  rw [← beq_iff_eq.1 heq] at hqData
  rw [sameContents_eq hpLoad hqLoad]
  exact Primitives.memoryEqual_eq hpData hqData rfl

end Strings

namespace Condition

/-- Checks the field at a position, if there is one. -/
def onField (fields : List Field) (i : Nat) (check : Field → Except EvalError Bool) :
    Except EvalError Bool :=
  match fields[i]? with
  | some field => check field
  | none => .ok true

/-- What a condition on the structs at two places comes to. The values in interfaces are compared by
    `dynamic`. -/
def outcome (table : TypeTable) (arena : Arena)
    (dynamic : TypeId → Word → Word → Except EvalError Bool) (fields : List Field) (p q : Word) :
    Condition → Except EvalError Bool
  | same i => onField fields i fun field =>
    Leaves.equalVia table arena dynamic field.ty (p + field.offset) (q + field.offset)
  | block i size => onField fields i fun field =>
    Primitives.memoryEqual arena (p + field.offset) (q + field.offset) size
  | lengths i => onField fields i fun field =>
    sameLength table arena (p + field.offset) (q + field.offset)
  | contents i => onField fields i fun field =>
    sameContents table arena (p + field.offset) (q + field.offset)
  | element i ty => onField fields i fun field =>
    Leaves.equalVia table arena dynamic ty (p + field.offset) (q + field.offset)

/-! ### Moving calls -/

/-- A condition that holds or does not. One that follows another may rely on it. -/
inductive Settled (isCall : Condition → Bool) (outcome : Condition → Except EvalError Bool) :
    List Condition → Prop
  | nil : Settled isCall outcome []
  | cons {c : Condition} {b : Bool} {l : List Condition} : outcome c = .ok b →
      Settled isCall outcome l → Settled isCall outcome (c :: l)
  | guarded {g c : Condition} {b : Bool} {l : List Condition} : isCall g = false → isCall c = true →
      outcome g = .ok b → (b = true → ∃ b', outcome c = .ok b') → Settled isCall outcome l →
      Settled isCall outcome (g :: c :: l)

variable {isCall : Condition → Bool} {outcome : Condition → Except EvalError Bool}
  {l l' : List Condition}

/-- Whether a condition holds. -/
def holds (outcome : Condition → Except EvalError Bool) (c : Condition) : Bool :=
  match outcome c with
  | .ok b => b
  | .error _ => true

theorem eq_holds {c : Condition} {b : Bool} (h : outcome c = .ok b) : outcome c = .ok (holds outcome c) := by
  rw [holds, h]

namespace Settled

theorem append (h : Settled isCall outcome l) (h' : Settled isCall outcome l') :
    Settled isCall outcome (l ++ l') := by
  induction h with
  | nil => exact h'
  | cons hc _ ih => exact .cons hc ih
  | guarded hg hc hguard hok _ ih => exact .guarded hg hc hguard hok ih

theorem flatMap {α : Type} {groups : List α} {f : α → List Condition}
    (h : ∀ group ∈ groups, Settled isCall outcome (f group)) :
    Settled isCall outcome (groups.flatMap f) := by
  induction groups with
  | nil => exact .nil
  | cons group groups ih =>
    rw [List.flatMap_cons]
    exact (h group List.mem_cons_self).append (ih fun g hg => h g (List.mem_cons_of_mem _ hg))

theorem of_forall (h : ∀ c ∈ l, ∃ b, outcome c = .ok b) : Settled isCall outcome l := by
  induction l with
  | nil => exact .nil
  | cons c l ih =>
    obtain ⟨b, hb⟩ := h c List.mem_cons_self
    exact .cons hb (ih fun d hd => h d (List.mem_cons_of_mem _ hd))

/-- In the given order every condition that is reached has an outcome. -/
theorem conj_eq (h : Settled isCall outcome l) :
    conj (l.map outcome) = .ok (l.all (holds outcome)) := by
  induction h with
  | nil => rfl
  | @cons c b l hc _ ih =>
    rw [List.map_cons, conj_cons, eq_holds hc, List.all_cons, ih]
    cases holds outcome c <;> rfl
  | @guarded g c b l _ _ hguard hok _ ih =>
    rw [List.map_cons, conj_cons, hguard, List.all_cons, holds, hguard]
    cases b with
    | false => rfl
    | true =>
      obtain ⟨b', hc⟩ := hok rfl
      rw [List.map_cons, List.all_cons]
      change conj (outcome c :: l.map outcome) = _
      rw [conj_cons, eq_holds hc, ih]
      cases holds outcome c <;> rfl

theorem cheap (h : Settled isCall outcome l) {c : Condition} (hc : c ∈ l)
    (hcheap : isCall c = false) : outcome c = .ok (holds outcome c) := by
  induction h with
  | nil => cases hc
  | cons hfirst _ ih =>
    rcases List.mem_cons.1 hc with rfl | hc
    · exact eq_holds hfirst
    · exact ih hc
  | guarded _ hcall hguard _ _ ih =>
    rcases List.mem_cons.1 hc with rfl | hc
    · exact eq_holds hguard
    · rcases List.mem_cons.1 hc with rfl | hc
      · rw [hcall] at hcheap
        cases hcheap
      · exact ih hc

/-- After all cheap conditions every call has an outcome. -/
theorem call (h : Settled isCall outcome l)
    (hcheap : ∀ c ∈ l, isCall c = false → holds outcome c = true) {c : Condition} (hc : c ∈ l)
    (hcall : isCall c = true) : outcome c = .ok (holds outcome c) := by
  induction h with
  | nil => cases hc
  | cons hfirst _ ih =>
    rcases List.mem_cons.1 hc with rfl | hc
    · exact eq_holds hfirst
    · exact ih (fun d hd => hcheap d (List.mem_cons_of_mem _ hd)) hc
  | @guarded g d b l hg hd hguard hok _ ih =>
    rcases List.mem_cons.1 hc with rfl | hc
    · rw [hg] at hcall
      cases hcall
    · rcases List.mem_cons.1 hc with rfl | hc
      · have hholds := hcheap g List.mem_cons_self hg
        rw [holds, hguard] at hholds
        obtain ⟨b', hc⟩ := hok hholds
        exact eq_holds hc
      · exact ih (fun c' hc' => hcheap c' (List.mem_cons_of_mem _ (List.mem_cons_of_mem _ hc'))) hc

/-- The cheap conditions have an outcome, and so have the calls if those hold. -/
theorem passes (h : Settled isCall outcome l) :
    conj ((l.filter (!isCall ·)).map outcome) = .ok ((l.filter (!isCall ·)).all (holds outcome)) ∧
      ((l.filter (!isCall ·)).all (holds outcome) = true →
        conj ((l.filter isCall).map outcome) = .ok ((l.filter isCall).all (holds outcome))) := by
  refine ⟨?_, fun hall => ?_⟩
  · rw [← conj_map_ok]
    refine conj_map_congr fun c hc => ?_
    obtain ⟨hc, hcheap⟩ := List.mem_filter.1 hc
    exact h.cheap hc (by simpa using hcheap)
  · rw [← conj_map_ok]
    refine conj_map_congr fun c hc => ?_
    obtain ⟨hc, hcall⟩ := List.mem_filter.1 hc
    refine h.call (fun d hd hcheap => ?_) hc hcall
    exact List.all_eq_true.1 hall d (List.mem_filter.2 ⟨hd, by rw [hcheap]; rfl⟩)

theorem all_filter (test : Condition → Bool) (l : List Condition) :
    ((l.filter (!isCall ·)).all test && (l.filter isCall).all test) = l.all test := by
  induction l with
  | nil => rfl
  | cons c l ih =>
    rw [List.all_cons, ← ih]
    cases hc : isCall c with
    | false => simp [hc, Bool.and_assoc]
    | true => simp [hc, Bool.and_left_comm]

theorem conj_callsLast (h : Settled isCall outcome l) :
    conj ((callsLast isCall l).map outcome) = conj (l.map outcome) := by
  obtain ⟨hcheap, hcalls⟩ := h.passes
  rw [callsLast, List.map_append, conj_append, hcheap, h.conj_eq,
    ← all_filter _ l]
  cases hall : (l.filter (!isCall ·)).all (holds outcome) with
  | false => rfl
  | true => exact hcalls hall

end Settled

theorem filter_callsLast (isCall : Condition → Bool) (l : List Condition) :
    (callsLast isCall l).filter (fun c => isCall c == false) = l.filter (!isCall ·) ∧
      (callsLast isCall l).filter (fun c => isCall c == true) = l.filter isCall := by
  have hnone : ∀ c, (!isCall c && isCall c) = false := fun c => by cases isCall c <;> rfl
  simp [callsLast, List.filter_append, List.filter_filter, hnone]

theorem callsLast_singleton (isCall : Condition → Bool) (c : Condition) :
    callsLast isCall [c] = [c] := by
  rw [callsLast, List.filter_cons, List.filter_cons]
  cases isCall c <;> rfl

/-- Conditions can be arranged, given that those which are not alone in their group have an
    outcome. -/
theorem conj_arrange {pending : List Condition} {groups : List (Bool × List Condition)}
    (hpending : Settled isCall outcome pending)
    (hgroups : ∀ group ∈ groups,
      (group.1 = false → Settled isCall outcome group.2) ∧ (group.1 = true → ∃ c, group.2 = [c])) :
    conj ((arrange isCall pending groups).map outcome) =
      conj ((pending ++ groups.flatMap (·.2)).map outcome) := by
  fun_induction arrange isCall pending groups with
  | case1 pending => rw [hpending.conj_callsLast, List.flatMap_nil, List.append_nil]
  | case2 pending conditions rest ih =>
    have hfirst := (hgroups _ List.mem_cons_self).1 rfl
    rw [ih (hpending.append hfirst) fun group hgroup => hgroups group (List.mem_cons_of_mem _ hgroup),
      List.flatMap_cons, List.append_assoc]
  | case3 pending conditions rest ih =>
    obtain ⟨c, hc⟩ := (hgroups _ List.mem_cons_self).2 rfl
    dsimp only at hc
    rw [hc, callsLast_singleton, List.map_append, List.map_append, conj_append, conj_append,
      hpending.conj_callsLast,
      ih .nil fun group hgroup => hgroups group (List.mem_cons_of_mem _ hgroup), ← conj_append,
      ← conj_append, ← List.map_append, ← List.map_append, List.flatMap_cons, List.nil_append,
      List.append_assoc]

/-- Without a condition that can panic all calls go last. -/
theorem arrange_eq_callsLast {pending : List Condition} {groups : List (Bool × List Condition)}
    (hgroups : ∀ group ∈ groups, group.1 = false) :
    arrange isCall pending groups = callsLast isCall (pending ++ groups.flatMap (·.2)) := by
  fun_induction arrange isCall pending groups with
  | case1 pending => rw [List.flatMap_nil, List.append_nil]
  | case2 pending conditions rest ih =>
    rw [ih fun group hgroup => hgroups group (List.mem_cons_of_mem _ hgroup), List.flatMap_cons,
      List.append_assoc]
  | case3 pending conditions rest ih => cases hgroups _ List.mem_cons_self

end Condition

/-! ### The conditions at a stop -/

namespace TypeTable

variable {table : TypeTable} {arena : Arena} {ty : TypeId} {e : Entry} {p q : Word}

theorem conj_onField (fields : List Field) (check : Field → Except EvalError Bool) (i n : Nat) :
    conj ((List.range' i n).map fun k => Condition.onField fields k check) =
      conj (((fields.drop i).take n).map check) := by
  induction n generalizing i with
  | zero => rfl
  | succ n ih =>
    rw [List.range'_succ, List.map_cons, conj_cons, ih, Condition.onField]
    rcases Nat.lt_or_ge i fields.length with hlt | hge
    · rw [List.getElem?_eq_getElem hlt, List.drop_eq_getElem_cons hlt, List.take_succ_cons,
        List.map_cons, conj_cons]
    · rw [List.getElem?_eq_none hge, List.drop_eq_nil_of_le hge,
        List.drop_eq_nil_of_le (Nat.le_succ_of_le hge), List.take_nil, List.take_nil]
      rfl

section Stop

variable (h : Lawful table) (hget : table.get ty = .ok e) {field : Field} {i : Nat}
  (hi : e.fields[i]? = some field) (hblank : field.isBlank = false)
include h hget hi hblank

/-- What is compared together with a field of plain memory. -/
theorem Lawful.run_compared (hmemory : table.base field.ty = .memory) :
    i < (table.fieldCost ty i).next ∧ (table.fieldCost ty i).next ≤ e.fields.length ∧
      Run table e field (covered e.fields i (table.fieldCost ty i).next)
        (table.fieldCost ty i).size := by
  cases hmerges : table.target.mergesLoads with
  | true =>
    simp only [fieldCost, hmerges, if_true]
    exact (h.laidOut hget).run hget hi hblank hmemory
  | false =>
    simp only [fieldCost, hmerges, Bool.false_eq_true, if_false, fields_of_get hget, hi]
    rw [covered_single hi]
    exact ⟨Nat.lt_succ_self i, (List.getElem?_eq_some_iff.1 hi).1,
      (h.laidOut hget).run_single (List.mem_of_getElem? hi) hblank hmemory⟩

/-- A stop covers its own field at least, and no blank one. -/
theorem Lawful.covered_compared :
    i < table.comparedUpTo ty i ∧
      ∀ f ∈ covered e.fields i (table.comparedUpTo ty i), f.isBlank = false := by
  simp only [comparedUpTo, fields_of_get hget, hi]
  split
  · next hmemory =>
    obtain ⟨hlt, _, hrun⟩ := h.run_compared hget hi hblank (beq_iff_eq.1 hmemory)
    exact ⟨hlt, fun f hf => (hrun.plain f hf).2.1⟩
  · rw [covered_single hi]
    exact ⟨Nat.lt_succ_self i, List.forall_mem_singleton.2 hblank⟩

variable (hp : Readable table arena ty p) (hq : Readable table arena ty q)
include hp hq

/-- The conditions at a stop compare the fields that it covers. -/
theorem conj_fieldConditions (dynamic : TypeId → Word → Word → Except EvalError Bool) :
    conj ((table.fieldConditions ty field i).map
      (Condition.outcome table arena dynamic e.fields p q)) =
    conj ((covered e.fields i (table.comparedUpTo ty i)).map fun f =>
      Leaves.equalVia table arena dynamic f.ty (p + f.offset) (q + f.offset)) := by
  have hpBounds := hp.bounds
  have hqBounds := hq.bounds
  rw [sizeOf_of_get hget] at hpBounds hqBounds
  simp only [fieldConditions, comparedUpTo, fields_of_get hget, hi]
  split
  · next hmemory =>
    obtain ⟨hlt, _, hrun⟩ := h.run_compared hget hi hblank (beq_iff_eq.1 hmemory)
    split
    · rw [List.map_map]
      exact conj_onField _ _ _ _
    · rw [List.map_singleton, conj_singleton, Condition.outcome, Condition.onField, hi]
      exact hrun.equal h hget dynamic hpBounds hqBounds
  · rw [covered_single hi, List.map_singleton, conj_singleton]
    split
    · next hstring =>
      have hhas := h.field_has hget (List.mem_of_getElem? hi)
      rw [List.map_cons, List.map_singleton, Condition.outcome, Condition.outcome,
        Condition.onField, Condition.onField, hi]
      exact conj_string h hhas (base_of_isString h hhas hstring) dynamic
    · rw [List.map_singleton, conj_singleton, Condition.outcome, Condition.onField, hi]

/-- The conditions at a stop either have an outcome each, or there is but one. -/
theorem settled_fieldConditions (hpointer : table.target.pointerSize.toNat ≤ 8)
    (hbase : e.base ≠ .memory) (hne : e.base ≠ .noEquality)
    (dynamic : TypeId → Word → Word → Except EvalError Bool) :
    (table.fieldCanPanic field = false →
      Condition.Settled (Condition.isCall table) (Condition.outcome table arena dynamic e.fields p q)
        (table.fieldConditions ty field i)) ∧
    (table.fieldCanPanic field = true → ∃ c, table.fieldConditions ty field i = [c]) := by
  have hmem := List.mem_of_getElem? hi
  have hpBounds := hp.bounds
  have hqBounds := hq.bounds
  rw [sizeOf_of_get hget] at hpBounds hqBounds
  have hfield : ∀ (k : Nat) (f : Field), e.fields[k]? = some f → f.isBlank = false →
      table.base f.ty = .memory ∨ table.canPanic f.ty = false → ∃ b,
        Leaves.equalVia table arena dynamic f.ty (p + f.offset) (q + f.offset) = .ok b := by
    intro k f hk hblank' hpanic
    have hmem := List.mem_of_getElem? hk
    obtain ⟨hhas, hne'⟩ := h.base_part_ne hget hne (Entry.field_mem_parts hmem)
    exact Leaves.equalVia_isOk h hpointer hpanic (hp.field h hget hbase hmem hblank')
      (hq.field h hget hbase hmem hblank') dynamic
  simp only [fieldConditions, fieldCanPanic]
  split
  · next hmemory =>
    obtain ⟨hlt, _, hrun⟩ := h.run_compared hget hi hblank (beq_iff_eq.1 hmemory)
    refine ⟨fun _ => .of_forall fun c hc => ?_, fun hpanic => ?_⟩
    · split at hc
      · -- A run that is compared field by field.
        obtain ⟨k, hk, rfl⟩ := List.mem_map.1 hc
        rw [Condition.outcome, Condition.onField]
        cases hf : e.fields[k]? with
        | none => exact ⟨true, rfl⟩
        | some f =>
          have hcovered : f ∈ covered e.fields i (table.fieldCost ty i).next := by
            have hrange := List.mem_range'_1.1 hk
            exact mem_covered hf hrange.1 (by omega)
          obtain ⟨_, hblank', hmemory'⟩ := hrun.plain f hcovered
          exact hfield k f hf hblank' (.inl hmemory')
      · -- A run that is compared as one block.
        cases List.mem_singleton.1 hc
        rw [Condition.outcome, Condition.onField, hi]
        exact ⟨_, Primitives.memoryEqual_eq (hrun.inBounds hpBounds) (hrun.inBounds hqBounds) rfl⟩
    · rw [hmemory] at hpanic
      cases hpanic
  · next hmemory =>
    rw [Bool.not_eq_true] at hmemory
    rw [hmemory, Bool.not_false, Bool.true_and]
    split
    · next hstring =>
      have hhas := h.field_has hget hmem
      obtain ⟨b, b', hlengths, hcontents⟩ := same_isOk h hhas (base_of_isString h hhas hstring)
        hpointer (hp.field h hget hbase hmem hblank) (hq.field h hget hbase hmem hblank)
      -- Contents have an outcome where the lengths are the same, which is all that is needed.
      refine ⟨fun _ => .guarded (b := b) rfl rfl ?_ (fun hb => ⟨b', ?_⟩) .nil, fun hpanic => ?_⟩
      · rw [Condition.outcome, Condition.onField, hi]
        exact hlengths
      · rw [Condition.outcome, Condition.onField, hi]
        exact hcontents hb
      · obtain ⟨e', hget'⟩ := hhas
        rw [canPanic_of_isString h hget' hstring] at hpanic
        cases hpanic
    · refine ⟨fun hpanic => .of_forall fun c hc => ?_, fun _ => ⟨_, rfl⟩⟩
      cases List.mem_singleton.1 hc
      rw [Condition.outcome, Condition.onField, hi]
      exact hfield i field hi hblank (.inr hpanic)

end Stop

/-! ### The conditions on two structs -/

section Struct

variable (h : Lawful table) (hget : table.get ty = .ok e) {name : Option String}
  {members : List Member} (hkind : e.kind = .struct name members) (hbase : e.base ≠ .memory)
  (hp : Readable table arena ty p) (hq : Readable table arena ty q)
include h hget hkind hbase hp hq

/-- Stop by stop the conditions compare the structs. -/
theorem conj_comparedFields (dynamic : TypeId → Word → Word → Except EvalError Bool) :
    conj (((table.comparedFields ty).flatMap fun stop =>
      table.fieldConditions ty stop.1 stop.2).map
        (Condition.outcome table arena dynamic e.fields p q)) =
      Leaves.equalVia table arena dynamic ty p q := by
  rw [Leaves.equalVia_struct hget hbase hkind,
    conj_leaders (fun i field hi hblank => h.covered_compared hget hi hblank), List.map_flatMap,
    conj_flatMap, comparedFields, fields_of_get hget]
  refine conj_map_congr fun stop hstop => ?_
  rw [← fields_of_get hget] at hstop
  obtain ⟨hi, hblank⟩ := of_mem_comparedFields hget hstop
  exact conj_fieldConditions h hget hi hblank hp hq dynamic

variable (hpointer : table.target.pointerSize.toNat ≤ 8) (hne : e.base ≠ .noEquality)
include hpointer hne

/-- The conditions on two structs compare them. -/
theorem conj_conditions (dynamic : TypeId → Word → Word → Except EvalError Bool) :
    conj ((table.conditions ty).map (Condition.outcome table arena dynamic e.fields p q)) =
      Leaves.equalVia table arena dynamic ty p q := by
  rw [← conj_comparedFields h hget hkind hbase hp hq, conditions,
    Condition.conj_arrange .nil, List.nil_append, List.flatMap_map]
  intro group hgroup
  obtain ⟨stop, hstop, rfl⟩ := List.mem_map.1 hgroup
  obtain ⟨hi, hblank⟩ := of_mem_comparedFields hget hstop
  exact settled_fieldConditions h hget hi hblank hp hq hpointer hbase hne dynamic

/-- If no condition can panic the structs can be compared in two passes, the cheap conditions
    before the calls. -/
theorem conj_conditions_passes (hpanic : table.conditionsCanPanic ty = false)
    (dynamic : TypeId → Word → Word → Except EvalError Bool) {cheap calls : Except EvalError Bool}
    (hcheap : conj (((table.conditions ty).filter fun c => c.isCall table == false).map
      (Condition.outcome table arena dynamic e.fields p q)) = cheap)
    (hcalls : conj (((table.conditions ty).filter fun c => c.isCall table == true).map
      (Condition.outcome table arena dynamic e.fields p q)) = calls) :
    conj [cheap, calls] = Leaves.equalVia table arena dynamic ty p q ∧
      ∃ b b', cheap = .ok b ∧ (b = true → calls = .ok b') := by
  have hstops : ∀ stop ∈ table.comparedFields ty, table.fieldCanPanic stop.1 = false :=
    fun stop hstop => by simpa using List.any_eq_false.1 hpanic stop hstop
  have hsettled : Condition.Settled (Condition.isCall table)
      (Condition.outcome table arena dynamic e.fields p q)
      ((table.comparedFields ty).flatMap fun stop => table.fieldConditions ty stop.1 stop.2) := by
    refine .flatMap fun stop hstop => ?_
    obtain ⟨hi, hblank⟩ := of_mem_comparedFields hget hstop
    exact (settled_fieldConditions h hget hi hblank hp hq hpointer hbase hne dynamic).1
      (hstops stop hstop)
  -- As nothing panics, the conditions are one group with the calls last.
  have hconditions : table.conditions ty = Condition.callsLast (Condition.isCall table)
      ((table.comparedFields ty).flatMap fun stop => table.fieldConditions ty stop.1 stop.2) := by
    rw [conditions, Condition.arrange_eq_callsLast, List.nil_append, List.flatMap_map]
    intro group hgroup
    obtain ⟨stop, hstop, rfl⟩ := List.mem_map.1 hgroup
    exact hstops stop hstop
  have hequal := conj_comparedFields h hget hkind hbase hp hq dynamic
  generalize (table.comparedFields ty).flatMap
    (fun stop => table.fieldConditions ty stop.1 stop.2) = l at *
  obtain ⟨hfirst, hsecond⟩ := hsettled.passes
  obtain ⟨hfilter, hfilter'⟩ := Condition.filter_callsLast (Condition.isCall table) l
  rw [hconditions, hfilter] at hcheap
  rw [hconditions, hfilter'] at hcalls
  refine ⟨?_, _, _, hcheap.symm.trans hfirst, fun hall => hcalls.symm.trans (hsecond hall)⟩
  rw [← hequal, ← hsettled.conj_callsLast, Condition.callsLast, List.map_append, conj_append, hcheap,
    hcalls, conj_cons, conj_singleton]

end Struct

end TypeTable

/-! ### Two passes -/

/-- Two checks at every index can be made in two passes, if the first ones have an outcome and so
    have the second ones behind them. -/
theorem conj_passes {ε α : Type} {first second : α → Except ε Bool} {l : List α}
    (h : ∀ a ∈ l, ∃ b b', first a = .ok b ∧ (b = true → second a = .ok b')) :
    conj [conj (l.map first), conj (l.map second)] =
      conj (l.map fun a => conj [first a, second a]) := by
  induction l with
  | nil => rfl
  | cons a l ih =>
    have hrest : ∀ c ∈ l, ∃ b b', first c = .ok b ∧ (b = true → second c = .ok b') :=
      fun c hc => h c (List.mem_cons_of_mem a hc)
    have hall : ∃ b, conj (l.map first) = .ok b := conj_isOk fun c hc => by
      obtain ⟨b, _, hfirst, _⟩ := hrest c hc
      exact ⟨b, hfirst⟩
    obtain ⟨b, b', hfirst, hsecond⟩ := h a List.mem_cons_self
    rw [List.map_cons, List.map_cons, List.map_cons, hfirst]
    cases b with
    | false => rfl
    | true =>
      rw [hsecond rfl]
      cases b' with
      | true => exact ih hrest
      | false =>
        obtain ⟨b, hb⟩ := hall
        change conj [conj (l.map first), .ok false] = .ok false
        rw [hb]
        cases b <;> rfl

end HashEq
