import HashEq.Proofs.Machine.Conditions
import HashEq.Proofs.Machine.Statements

/-!
# The code of equality functions

The code generated for a type compares two images of it leaf by leaf, as long as what
it calls does so for the parts that it is called on.

* `EqualCalls`: what calls are relied on for;
* `decides_elementEqual`, `decides_condition`: conditions on parts;
* `ends_structChecks`, `ends_arrayChecks`: the bodies of equality functions;
* `ends_equalityFunction`: what an equality function answers.
-/

namespace HashEq

open Session TypeTable

/-- What compares the values of a type that are compared by a call. -/
def TypeTable.equalCallee? (table : TypeTable) (ty : TypeId) : Option Callee :=
  match table.base ty with
  | .interface => some (.primitive ⟨.equality, .interface⟩)
  | .nilInterface => some (.primitive ⟨.equality, .nilInterface⟩)
  | .special => some (.generated (functionSymbol .equality (table.shape ty).text))
  | _ => none

namespace Interpreter

/-- From the session `s` on calls compare blocks of memory, and images in which interfaces nest less
    than `n` deep. Functions are called for the types in `known` only. -/
structure EqualCalls (table : TypeTable) (arena : Arena) (call : Callee → List Word → EvalM Word)
    (s : Session) (n : Nat) (known : List TypeId) : Prop where
  memory : ∀ p q size : Word,
    Ends table s (call (.primitive ⟨.equality, .memory⟩) [p, q, size])
      (· = (wordOfBool <$> Primitives.memoryEqual arena p q size))
  element : ∀ {ty : TypeId} {callee : Callee} {p q : Word}, table.Has ty →
    (table.base ty = .special → ty ∈ known) → table.equalCallee? ty = some callee →
    ImageWithin table arena n ty p → ImageWithin table arena n ty q →
    Ends table s (call callee [p, q])
      (· = (wordOfBool <$> Leaves.equalWithin table arena n ty p q))

variable {table : TypeTable} {arena : Arena} {call : Callee → List Word → EvalM Word} {s : Session}
  {n : Nat} {known : List TypeId} {frame : Frame} {P Q code : Expr} {p q : Word} {ty : TypeId}
  {e : Entry}

/-! ### Parts -/

section Element

variable (h : Lawful table) (hpointer : table.target.pointerSize.toNat ≤ 8)
  (hcalls : EqualCalls table arena call s (n + 1) known)
  (hty : table.Has ty) (hp : ImageWithin table arena (n + 1) ty p)
  (hq : ImageWithin table arena (n + 1) ty q) (hP : Denotes table arena call frame P p ty)
  (hQ : Denotes table arena call frame Q q ty)
include h hcalls hty hp hq hP hQ

omit hp hq hcalls in
/-- Places are compared inline if they hold plain memory or numbers. -/
theorem decides_equalPlaces
    (hbase : table.base ty ∈ [.memory, .float32, .float64, .complex64, .complex128]) :
    Decides table arena call s frame (.eq P Q)
      (Leaves.equalWithin table arena (n + 1) ty p q) := by
  obtain ⟨e, hget⟩ := hty
  rw [Decides, eval_equalPlaces hP hQ]
  refine .lift (congrArg (wordOfBool <$> ·) ?_)
  rw [Leaves.equalWithin, placesEqual]
  rw [base_of_get hget] at hbase ⊢
  by_cases hmemory : e.base = .memory
  · rw [Leaves.equalVia_memory hget hmemory, hmemory, sizeOf_of_get hget]
  · simp only [List.mem_cons, List.not_mem_nil, or_false, hmemory, false_or] at hbase
    have hspecial : e.base ≠ .special := by
      rcases hbase with hb | hb | hb | hb <;> rw [hb] <;> decide
    have hne : e.base ≠ .noEquality := by
      rcases hbase with hb | hb | hb | hb <;> rw [hb] <;> decide
    rw [Leaves.equalVia_lone h hget hmemory hspecial hne, leafOf]
    rcases hbase with hb | hb | hb | hb <;> rw [hb] <;> rfl

omit hp hq in
include hpointer in
/-- Strings are compared inline as far as their lengths. -/
theorem decides_strings (hp : Readable table arena ty p) (hq : Readable table arena ty q)
    (hbase : table.base ty = .string) :
    Decides table arena call s frame (lengthsEqual P Q) (sameLength table arena p q) ∧
      Decides table arena call s frame (contentsEqual P Q) (sameContents table arena p q) := by
  obtain ⟨pData, pLen, qData, qLen, hpLoad, hqLoad, _⟩ :=
    strings_isOk h hty hbase hpointer hp hq
  rw [sameLength_eq hpLoad hqLoad, sameContents_eq hpLoad hqLoad]
  refine ⟨.of_eq (eval_lengthsEqual hP hQ hpLoad hqLoad), ?_⟩
  rw [Decides, eval_contentsEqual hP hQ hpLoad hqLoad]
  exact hcalls.memory pData qData pLen

include hpointer in
/-- The condition on two elements compares them. -/
theorem decides_elementEqual (hknown : table.base ty = .special → ty ∈ known)
    (hcode : table.elementEqual ty P Q = .ok code) :
    Decides table arena call s frame code (Leaves.equalWithin table arena (n + 1) ty p q) := by
  have hcall : ∀ callee, table.equalCallee? ty = some callee →
      Decides table arena call s frame (.call callee [.addr P, .addr Q])
        (Leaves.equalWithin table arena (n + 1) ty p q) := by
    intro callee hcallee
    rw [Decides, eval_callAddresses hP hQ]
    exact hcalls.element hty hknown hcallee hp hq
  cases elementEqual_cases hcode with
  | inPlace hbase => exact decides_equalPlaces h hty hP hQ hbase
  | strings hbase =>
    obtain ⟨hlengths, hcontents⟩ :=
      decides_strings h hpointer hcalls hty hP hQ hp.readable hq.readable hbase
    rw [Leaves.equalWithin, ← conj_string h hty hbase]
    exact .and hlengths hcontents
  | interface hbase | nilInterface hbase => exact hcall _ (by rw [equalCallee?, hbase])
  | special hbase hsymbol =>
    rw [h.symbolOf_eq hty] at hsymbol
    cases hsymbol
    exact hcall _ (by rw [equalCallee?, hbase])

end Element

/-! ### Structs -/

section Struct

variable (h : Lawful table) (hpointer : table.target.pointerSize.toNat ≤ 8)
  (hcalls : EqualCalls table arena call s (n + 1) known) (hget : table.get ty = .ok e)
  (hbase : e.base ≠ .memory)
  (hknown : ∀ part ∈ table.specialFields ty, part ∈ known)
  (hp : ImageWithin table arena (n + 1) ty p) (hq : ImageWithin table arena (n + 1) ty q)
  (hP : Denotes table arena call frame P p ty) (hQ : Denotes table arena call frame Q q ty)
include h hpointer hcalls hget hbase hknown hp hq hP hQ

/-- A condition on two structs comes to what it is meant to. -/
theorem decides_condition {c : Condition} (hc : c ∈ table.conditions ty)
    (hcode : c.expr table ty P Q = .ok code) :
    Decides table arena call s frame code
      (c.outcome table arena (Leaves.equalWithin table arena n) e.fields p q) := by
  obtain ⟨field, i, hi, hblank, hc⟩ := of_mem_conditions hget hc
  have hpBounds := hp.readable.bounds
  have hqBounds := hq.readable.bounds
  rw [sizeOf_of_get hget] at hpBounds hqBounds
  have hmem := List.mem_of_getElem? hi
  have hPi := hP.field_of_inBounds h hget hpBounds hi
  have hQi := hQ.field_of_inBounds h hget hqBounds hi
  have hhas := h.field_has hget hmem
  have hstrings := fun hstring => decides_strings h hpointer hcalls hhas hPi hQi
    (hp.readable.field h hget hbase hmem hblank) (hq.readable.field h hget hbase hmem hblank)
    (base_of_isString h hhas hstring)
  cases hc with
  | @same j hmemory hle hlt =>
    obtain ⟨_, hnext, hrun⟩ := h.run_compared hget hi hblank (beq_iff_eq.1 hmemory)
    cases hcode
    have hf := List.getElem?_eq_getElem (Nat.lt_of_lt_of_le hlt hnext)
    obtain ⟨hmem', _, hmemory'⟩ := hrun.plain _ (mem_covered hf hle hlt)
    rw [Condition.outcome, Condition.onField, hf]
    exact decides_equalPlaces h (h.field_has hget hmem') (hP.field_of_inBounds h hget hpBounds hf)
      (hQ.field_of_inBounds h hget hqBounds hf) (by rw [hmemory']; decide)
  | block =>
    cases hcode
    rw [Condition.outcome, Condition.onField, hi, Decides, eval_callBlock hPi hQi]
    exact hcalls.memory _ _ _
  | lengths _ hstring =>
    cases hcode
    rw [Condition.outcome, Condition.onField, hi]
    exact (hstrings hstring).1
  | contents _ hstring =>
    cases hcode
    rw [Condition.outcome, Condition.onField, hi]
    exact (hstrings hstring).2
  | element =>
    rw [Condition.outcome, Condition.onField, hi]
    exact decides_elementEqual h hpointer hcalls hhas (hp.field h hget hbase hmem hblank)
      (hq.field h hget hbase hmem hblank) hPi hQi
      (fun hspecial => hknown _ (mem_specialFields hget hmem hblank hspecial)) hcode

end Struct

section Conditions

variable (h : Lawful table) (hget : table.get ty = .ok e) (hne : e.base ≠ .noEquality)

/-- The expression for a condition on two structs. -/
def conditionCode (table : TypeTable) (ty : TypeId) (P Q : Expr) (c : Condition) : Expr :=
  match c.expr table ty P Q with
  | .ok code => code
  | .error _ => .bool true

include h hget hne

theorem expr_eq_ok (P Q : Expr) {c : Condition} (hc : c ∈ table.conditions ty) :
    c.expr table ty P Q = .ok (conditionCode table ty P Q c) := by
  obtain ⟨code, hcode⟩ := conditionExpr_isOk h hget hne P Q hc
  rw [conditionCode, hcode]

theorem structConditions_eq (P Q : Expr) : table.structConditions ty P Q =
    .ok ((table.conditions ty).map (conditionCode table ty P Q)) :=
  mapM_eq_map fun _ hc => expr_eq_ok h hget hne P Q hc

theorem conditionsThat_eq (calls : Bool) (P Q : Expr) : table.conditionsThat calls ty P Q =
    .ok (.all (((table.conditions ty).filter fun c => c.isCall table == calls).map
      (conditionCode table ty P Q))) := by
  rw [conditionsThat,
    mapM_eq_map fun c hc => expr_eq_ok h hget hne P Q (List.mem_filter.1 hc).1]
  rfl

end Conditions

/-! ### Bodies of functions -/

section Body

variable {result : Option Nat} {count : Nat} {stmts : List Stmt}
  (h : Lawful table) (hpointer : table.target.pointerSize.toNat ≤ 8)
  (hcalls : EqualCalls table arena call s (n + 1) (table.callees .equality ty))
  (hget : table.get ty = .ok e) (hspecial : e.base = .special)
  (hp : ImageWithin table arena (n + 1) ty p) (hq : ImageWithin table arena (n + 1) ty q)
  (hcount : 2 < count) (hframe : Running p q count frame)
include h hpointer hcalls hget hspecial hp hq hcount hframe

/-- The conditions on two structs are checked in order. -/
theorem ends_structChecks {name : Option String} {members : List Member}
    (hkind : e.kind = .struct name members) {conditions : List Expr}
    (hconditions : table.structConditions ty (.deref (.var EqualityCode.p) ty)
      (.deref (.var EqualityCode.q) ty) = .ok conditions) :
    Ends table s (execAll table arena call result (checkConditions conditions) frame)
      (Outcome true (Running p q count) (Leaves.equalWithin table arena (n + 1) ty p q)) := by
  have hbase : e.base ≠ .memory := by rw [hspecial]; decide
  have hne : e.base ≠ .noEquality := by rw [hspecial]; decide
  have hknown : table.callees .equality ty = table.specialFields ty := by
    simp only [callees, kind_of_get hget, hkind]
  rw [structConditions_eq h hget hne] at hconditions
  cases hconditions
  rw [Leaves.equalWithin,
    ← conj_conditions h hget hkind hbase hp.readable hq.readable hpointer hne]
  refine ends_checkConditions hframe hcount fun c hc => ?_
  exact decides_condition h hpointer hcalls hget hbase (fun part hpart => hknown ▸ hpart) hp hq
    (.deref hframe.p ty) (.deref hframe.q ty) hc (expr_eq_ok h hget hne _ _ hc)

section Array

variable {elem : TypeId} {len : Word} (hkind : e.kind = .array elem len)

/-- A condition on the elements at an index, wherever they are, answers the check at this index. -/
def ChecksElements (table : TypeTable) (arena : Arena) (call : Callee → List Word → EvalM Word)
    (s : Session) (p q : Word) (elem : TypeId) (len : Nat)
    (check : Expr → Expr → Except RequestError Expr) (checks : Nat → Except EvalError Bool) : Prop :=
  ∀ frame P Q code j, j < len →
    Denotes table arena call frame P (p + UInt64.ofNat j * table.sizeOf elem) elem →
    Denotes table arena call frame Q (q + UInt64.ofNat j * table.sizeOf elem) elem →
    check P Q = .ok code → Decides table arena call s frame code (checks j)

variable {check check' : Expr → Expr → Except RequestError Expr}
  {first second : Nat → Except EvalError Bool}

include hkind

omit hpointer hcalls hspecial hcount hframe in
theorem ChecksElements.checksAt
    (hcheck : ChecksElements table arena call s p q elem len.toNat check first) :
    ChecksAt table arena call s (Running p q count) (atElements ty elem check) len.toNat first := by
  have hpBounds := hp.readable.bounds
  have hqBounds := hq.readable.bounds
  rw [sizeOf_of_get hget] at hpBounds hqBounds
  intro frame position condition j hframe hj hposition hcondition
  exact hcheck frame _ _ condition j hj
    ((Denotes.deref hframe.p ty).elem_of_inBounds h hget hpBounds hkind hj hposition)
    ((Denotes.deref hframe.q ty).elem_of_inBounds h hget hqBounds hkind hj hposition) hcondition

omit h hpointer hcalls hp hq hcount hframe in
theorem equalWithin_array : Leaves.equalWithin table arena (n + 1) ty p q =
    conj ((List.range' 0 len.toNat).map fun j =>
      Leaves.equalWithin table arena (n + 1) elem (p + UInt64.ofNat j * table.sizeOf elem)
        (q + UInt64.ofNat j * table.sizeOf elem)) :=
  Leaves.equalVia_array hget (by rw [hspecial]; decide) hkind

/-- Elements are compared one after the other. -/
theorem ends_elements (hknown : table.base elem = .special → elem ∈ table.callees .equality ty)
    {unroll : Nat} (hunroll : 0 < unroll)
    (hstmts : checkAll unroll true len.toNat (atElements ty elem (table.elementEqual elem)) = .ok stmts)
    (hcounter : stmts.any Stmt.isLoop = true → EqualityCode.i < count) :
    Ends table s (execAll table arena call result stmts frame)
      (Outcome true (Running p q count) (Leaves.equalWithin table arena (n + 1) ty p q)) := by
  have hbase : e.base ≠ .memory := by rw [hspecial]; decide
  have hne : e.base ≠ .noEquality := by rw [hspecial]; decide
  obtain ⟨hhas, _⟩ := h.base_part_ne hget hne (Entry.elem_mem_parts hkind)
  rw [equalWithin_array hget hspecial hkind]
  refine ends_checkAll (ChecksElements.checksAt h hget hp hq hkind ?_) hunroll len.toNat_lt hstmts
    hcount hcounter hframe
  intro frame P Q code j hj hP hQ hcode
  exact decides_elementEqual h hpointer hcalls hhas (hp.elem h hget hbase hkind hj)
    (hq.elem h hget hbase hkind hj) hP hQ hknown hcode

omit hpointer hcalls in
/-- Elements are compared in two passes. -/
theorem ends_passes {unroll unroll' : Nat} {stmts' : List Stmt}
    (hunroll : 0 < unroll) (hunroll' : 0 < unroll')
    (hcheck : ChecksElements table arena call s p q elem len.toNat check first)
    (hcheck' : ChecksElements table arena call s p q elem len.toNat check' second)
    (hpasses : ∀ j < len.toNat,
      (conj [first j, second j] = Leaves.equalWithin table arena (n + 1) elem
        (p + UInt64.ofNat j * table.sizeOf elem) (q + UInt64.ofNat j * table.sizeOf elem)) ∧
      ∃ b b', first j = .ok b ∧ (b = true → second j = .ok b'))
    (hstmts : checkAll unroll false len.toNat (atElements ty elem check) = .ok stmts)
    (hstmts' : checkAll unroll' true len.toNat (atElements ty elem check') = .ok stmts')
    (hcounter : (stmts ++ stmts').any Stmt.isLoop = true → EqualityCode.i < count) :
    Ends table s (execAll table arena call result (stmts ++ stmts') frame)
      (Outcome true (Running p q count) (Leaves.equalWithin table arena (n + 1) ty p q)) := by
  have hindex : ∀ j ∈ List.range' 0 len.toNat, j < len.toNat := by simp
  rw [List.any_append, Bool.or_eq_true] at hcounter
  rw [equalWithin_array hget hspecial hkind,
    ← conj_map_congr fun j hj => (hpasses j (hindex j hj)).1,
    ← conj_passes fun j hj => (hpasses j (hindex j hj)).2]
  refine Outcome.append (ends_checkAll (hcheck.checksAt h hget hp hq hkind) hunroll
    len.toNat_lt hstmts hcount (fun hloop => hcounter (.inl hloop)) hframe) fun frame' hframe' _ => ?_
  exact ends_checkAll (hcheck'.checksAt h hget hp hq hkind) hunroll' len.toNat_lt hstmts' hcount
    (fun hloop => hcounter (.inr hloop)) hframe'

/-- Strings are compared in two passes: the lengths of all of them, and then the contents. -/
theorem ends_stringElements (hstring : table.base elem = .string) {unroll unroll' : Nat}
    (hunroll : 0 < unroll) (hunroll' : 0 < unroll') {stmts' : List Stmt}
    (hstmts : checkAll unroll false len.toNat
      (atElements ty elem fun p q => return lengthsEqual p q) = .ok stmts)
    (hstmts' : checkAll unroll' true len.toNat
      (atElements ty elem fun p q => return contentsEqual p q) = .ok stmts')
    (hcounter : (stmts ++ stmts').any Stmt.isLoop = true → EqualityCode.i < count) :
    Ends table s (execAll table arena call result (stmts ++ stmts') frame)
      (Outcome true (Running p q count) (Leaves.equalWithin table arena (n + 1) ty p q)) := by
  have hbase : e.base ≠ .memory := by rw [hspecial]; decide
  have hne : e.base ≠ .noEquality := by rw [hspecial]; decide
  obtain ⟨hhas, _⟩ := h.base_part_ne hget hne (Entry.elem_mem_parts hkind)
  have hpElem := fun j (hj : j < len.toNat) => (hp.elem h hget hbase hkind hj).readable
  have hqElem := fun j (hj : j < len.toNat) => (hq.elem h hget hbase hkind hj).readable
  have hlengths : ChecksElements table arena call s p q elem len.toNat
      (fun p q => return lengthsEqual p q) fun j =>
        sameLength table arena (p + UInt64.ofNat j * table.sizeOf elem)
          (q + UInt64.ofNat j * table.sizeOf elem) := by
    intro frame P Q code j hj hP hQ hcode
    cases hcode
    exact (decides_strings h hpointer hcalls hhas hP hQ (hpElem j hj) (hqElem j hj) hstring).1
  have hcontents : ChecksElements table arena call s p q elem len.toNat
      (fun p q => return contentsEqual p q) fun j =>
        sameContents table arena (p + UInt64.ofNat j * table.sizeOf elem)
          (q + UInt64.ofNat j * table.sizeOf elem) := by
    intro frame P Q code j hj hP hQ hcode
    cases hcode
    exact (decides_strings h hpointer hcalls hhas hP hQ (hpElem j hj) (hqElem j hj) hstring).2
  refine ends_passes h hget hspecial hp hq hcount hframe hkind hunroll hunroll' hlengths hcontents
    (fun j hj => ⟨?_, ?_⟩) hstmts hstmts' hcounter
  · exact conj_string h hhas hstring _
  · exact same_isOk h hhas hstring hpointer (hpElem j hj) (hqElem j hj)

/-- Floats are compared like all other elements, in a loop of their own. -/
theorem ends_floatElements (hfloat : table.base elem = .float32 ∨ table.base elem = .float64)
    {unroll : Nat} (hunroll : 0 < unroll)
    (hstmts : checkAll unroll true len.toNat (atElements ty elem fun p q => return .eq p q) =
      .ok stmts)
    (hcounter : stmts.any Stmt.isLoop = true → EqualityCode.i < count) :
    Ends table s (execAll table arena call result stmts frame)
      (Outcome true (Running p q count) (Leaves.equalWithin table arena (n + 1) ty p q)) := by
  have heq : (fun p q => return .eq p q) = table.elementEqual elem := by
    funext P Q
    rcases hfloat with hbase | hbase <;> simp only [elementEqual, hbase]
  rw [heq] at hstmts
  refine ends_elements h hpointer hcalls hget hspecial hp hq hcount hframe hkind
    (fun hspecial' => ?_) hunroll hstmts hcounter
  rw [hspecial'] at hfloat
  rcases hfloat with hbase | hbase <;> cases hbase

/-- Structs that cannot panic are compared in two passes: the conditions without calls on all of
    them, and then those with calls. -/
theorem ends_structElements {name : Option String} {members : List Member}
    (helem : table.kind elem = .struct name members) (hpasses : table.comparesInPasses elem = true)
    (hknown : ∀ part ∈ table.specialFields elem, part ∈ table.callees .equality ty)
    {unroll unroll' : Nat} (hunroll : 0 < unroll) (hunroll' : 0 < unroll') {stmts' : List Stmt}
    (hstmts : checkAll unroll false len.toNat
      (atElements ty elem (table.conditionsThat false elem)) = .ok stmts)
    (hstmts' : checkAll unroll' true len.toNat
      (atElements ty elem (table.conditionsThat true elem)) = .ok stmts')
    (hcounter : (stmts ++ stmts').any Stmt.isLoop = true → EqualityCode.i < count) :
    Ends table s (execAll table arena call result (stmts ++ stmts') frame)
      (Outcome true (Running p q count) (Leaves.equalWithin table arena (n + 1) ty p q)) := by
  have hbase : e.base ≠ .memory := by rw [hspecial]; decide
  have hne : e.base ≠ .noEquality := by rw [hspecial]; decide
  obtain ⟨⟨e', hget'⟩, hne'⟩ := h.base_part_ne hget hne (Entry.elem_mem_parts hkind)
  have hpElem := fun j (hj : j < len.toNat) => hp.elem h hget hbase hkind hj
  have hqElem := fun j (hj : j < len.toNat) => hq.elem h hget hbase hkind hj
  have hpanic : table.conditionsCanPanic elem = false := by
    rw [comparesInPasses, Bool.and_eq_true, Bool.not_eq_true'] at hpasses
    exact hpasses.2
  have hmemory := h.base_elem_ne hget hkind hspecial
  rw [base_of_get hget'] at hmemory hne'
  rw [kind_of_get hget'] at helem
  have hthat : ∀ calls, ChecksElements table arena call s p q elem len.toNat
      (table.conditionsThat calls elem) fun j =>
        conj (((table.conditions elem).filter fun c => c.isCall table == calls).map
          (Condition.outcome table arena (Leaves.equalWithin table arena n) e'.fields
            (p + UInt64.ofNat j * table.sizeOf elem)
            (q + UInt64.ofNat j * table.sizeOf elem))) := by
    intro calls frame P Q code j hj hP hQ hcode
    rw [conditionsThat_eq h hget' hne'] at hcode
    cases hcode
    refine .all fun c hc => ?_
    have hc := (List.mem_filter.1 hc).1
    exact decides_condition h hpointer hcalls hget' hmemory hknown (hpElem j hj) (hqElem j hj) hP hQ hc
      (expr_eq_ok h hget' hne' _ _ hc)
  refine ends_passes h hget hspecial hp hq hcount hframe hkind hunroll hunroll' (hthat false)
    (hthat true) (fun j hj => ?_) hstmts hstmts' hcounter
  exact conj_conditions_passes h hget' helem hmemory (hpElem j hj).readable (hqElem j hj).readable
    hpointer hne' hpanic _ rfl rfl

/-- The code for an array compares its elements. -/
theorem ends_arrayChecks (hstmts : table.arrayChecks ty elem len.toNat = .ok stmts)
    (hcounter : stmts.any Stmt.isLoop = true → EqualityCode.i < count) :
    Ends table s (execAll table arena call result stmts frame)
      (Outcome true (Running p q count) (Leaves.equalWithin table arena (n + 1) ty p q)) := by
  have hne : e.base ≠ .noEquality := by rw [hspecial]; decide
  obtain ⟨hhas, _⟩ := h.base_part_ne hget hne (Entry.elem_mem_parts hkind)
  have hcallees : table.callees .equality ty = table.elementCallees elem := by
    simp only [callees, kind_of_get hget, hkind]
  cases arrayChecks_cases hstmts with
  | strings hkind' hfirst hsecond =>
    exact ends_stringElements h hpointer hcalls hget hspecial hp hq hcount hframe hkind
      (base_of_isString h hhas (beq_iff_eq.2 hkind')) (by decide) (by decide) hfirst hsecond hcounter
  | floats hkind' hstmts =>
    exact ends_floatElements h hpointer hcalls hget hspecial hp hq hcount hframe hkind
      (hkind'.imp (fun hkind' => by rw [h.base_eq hhas, hkind']; rfl)
        fun hkind' => by rw [h.base_eq hhas, hkind']; rfl) (by decide) hstmts hcounter
  | structs hkind' hpasses hfirst hsecond =>
    exact ends_structElements h hpointer hcalls hget hspecial hp hq hcount hframe hkind hkind' hpasses
      (fun part hpart => hcallees ▸ mem_elementCallees_of_field hkind' hpart) (by decide) (by decide)
      hfirst hsecond hcounter
  | elements hwhole hstmts =>
    exact ends_elements h hpointer hcalls hget hspecial hp hq hcount hframe hkind
      (fun hspecial' => hcallees ▸ mem_elementCallees hwhole hspecial') (by decide) hstmts hcounter

end Array

end Body

/-! ### Whole functions -/

theorem unlabelled_arrayChecks {elem : TypeId} {len : Nat} {stmts : List Stmt}
    (hstmts : table.arrayChecks ty elem len = .ok stmts) : Unlabelled stmts := by
  cases arrayChecks_cases hstmts with
  | strings _ hfirst hsecond | structs _ _ hfirst hsecond =>
    exact (unlabelled_checkAll hfirst).append (unlabelled_checkAll hsecond)
  | floats _ hstmts | elements _ hstmts => exact unlabelled_checkAll hstmts

/-- The equality function of a type compares two images leaf by leaf. -/
theorem ends_equalityFunction {f : Function} (h : Lawful table)
    (hpointer : table.target.pointerSize.toNat ≤ 8)
    (hcalls : EqualCalls table arena call s (n + 1) (table.callees .equality ty))
    (hty : table.Has ty) (hspecial : table.base ty = .special)
    (hp : ImageWithin table arena (n + 1) ty p) (hq : ImageWithin table arena (n + 1) ty q)
    (hf : table.equalityFunction ty = .ok f) :
    Ends table s (run table arena call f [p, q])
      (· = (wordOfBool <$> Leaves.equalWithin table arena (n + 1) ty p q)) := by
  obtain ⟨e, hget⟩ := hty
  rw [base_of_get hget] at hspecial
  obtain ⟨symbol, _, hf⟩ := bind_eq_ok_iff.1 hf
  obtain ⟨checks, hchecks, hf⟩ := bind_eq_ok_iff.1 hf
  cases hf
  have hcount : ∀ counter : List Var, 2 <
      ([⟨"p", .pointer ty⟩, ⟨"q", .pointer ty⟩, ⟨"r", .bool⟩] ++ counter : List Var).length := by
    intro counter
    rw [List.length_append]
    exact Nat.lt_of_lt_of_le (by decide : 2 < 3) (Nat.le_add_right _ _)
  rw [equalityChecks, kind_of_get hget] at hchecks
  rcases (h.isAggregate_of_special hget hspecial).2 with ⟨elem, len, hkind⟩ | ⟨name, members, hkind⟩
  · rw [hkind] at hchecks
    refine ends_run rfl (hcount _) rfl rfl (unlabelled_arrayChecks hchecks) fun frame hframe => ?_
    refine ends_arrayChecks h hpointer hcalls hget hspecial hp hq (hcount _) hframe hkind hchecks
      fun hloop => ?_
    -- A function whose body has a loop has a counter.
    rw [if_pos hloop]
    exact Nat.lt_succ_self 3
  · rw [hkind] at hchecks
    obtain ⟨conditions, hconditions, hchecks⟩ := bind_eq_ok_iff.1 hchecks
    cases hchecks
    refine ends_run rfl (hcount _) rfl rfl (unlabelled_checkConditions _) fun frame hframe => ?_
    exact ends_structChecks h hpointer hcalls hget hspecial hp hq (hcount _) hframe hkind hconditions

end Interpreter

end HashEq
