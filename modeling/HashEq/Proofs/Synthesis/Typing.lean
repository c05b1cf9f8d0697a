import HashEq.Proofs.Code.Typing
import HashEq.Proofs.Machine.Conditions

/-!
# Synthesized functions are well typed

Whatever is synthesized for a type is well typed, and calls nothing but primitives for
its purpose and the functions of the types that are generated before it.

* `TypeTable.Callable`: what a synthesized function can call;
* `Condition.Fits`, `fits_of_mem_conditions`: what conditions look at;
* `EqualityScope.structChecks`, `EqualityScope.arrayChecks`: the bodies of equality
  functions;
* `HashScope.hashSteps`: the bodies of hash functions;
* `Lawful.typed_synthesize`: whole functions.
-/

namespace HashEq

namespace TypeTable

/-- What a function that is synthesized for a purpose can call, given the types whose functions it
    can call: primitives by their contracts, and functions on two words. -/
def Callable (table : TypeTable) (purpose : Purpose) (types : List TypeId) : Callee → Nat → Prop
  | .primitive primitive, count => primitive.purpose = purpose ∧ primitive.contract.arity = count
  | .generated symbol, count =>
    count = 2 ∧ ∃ callee ∈ types, table.symbolOf purpose callee = .ok symbol

variable {table : TypeTable} {ty elem : TypeId} {e : Entry} {f : Function} {types : List TypeId}
  {p q position code : Expr}

end TypeTable

open TypeTable

/-- A condition looks at fields that there are, and that it is made for. -/
def Condition.Fits (table : TypeTable) (fields : List Field) : Condition → Prop
  | .same i => ∃ field, fields[i]? = some field ∧ table.base field.ty = .memory
  | .block i _ => ∃ field, fields[i]? = some field
  | .lengths i | .contents i => ∃ field, fields[i]? = some field ∧ table.base field.ty = .string
  | .element i ty => ∃ field, fields[i]? = some field ∧ field.ty = ty ∧ field.isBlank = false

section Conditions

variable {table : TypeTable} {ty : TypeId} {e : Entry}

theorem fits_of_mem_conditions (h : Lawful table) (hget : table.get ty = .ok e) {c : Condition}
    (hc : c ∈ table.conditions ty) : c.Fits table e.fields := by
  obtain ⟨field, i, hi, hblank, hc⟩ := of_mem_conditions hget hc
  cases hc with
  | same hmemory hle hlt =>
    obtain ⟨_, hnext, hrun⟩ := h.run_compared hget hi hblank (beq_iff_eq.1 hmemory)
    have hf := List.getElem?_eq_getElem (Nat.lt_of_lt_of_le hlt hnext)
    exact ⟨_, hf, (hrun.plain _ (mem_covered hf hle hlt)).2.2⟩
  | block => exact ⟨field, hi⟩
  | lengths _ hstring | contents _ hstring =>
    exact ⟨field, hi, base_of_isString h (h.field_has hget (List.mem_of_getElem? hi)) hstring⟩
  | element => exact ⟨field, hi, rfl, hblank⟩

theorem comparedInPlace_of_float (h : Lawful table) (hty : table.Has ty)
    (hkind : table.kind ty = .float32 ∨ table.kind ty = .float64) :
    (table.base ty).ComparedInPlace := by
  have hbase : table.base ty = .float32 ∨ table.base ty = .float64 :=
    hkind.imp (fun hkind => (h.base_eq hty).trans (by rw [hkind]; rfl))
      fun hkind => (h.base_eq hty).trans (by rw [hkind]; rfl)
  rcases hbase with hbase | hbase <;> rw [hbase, BaseAlgorithm.ComparedInPlace] <;> decide

end Conditions

/-- What steps that all succeed answer is answered by one of them each. -/
theorem exists_of_mapM_eq_ok {ε α β : Type} {f : α → Except ε β} {l : List α} {bs : List β}
    (h : l.mapM f = .ok bs) : ∀ b ∈ bs, ∃ a ∈ l, f a = .ok b := by
  induction l generalizing bs with
  | nil =>
    cases h
    exact nofun
  | cons a l ih =>
    rw [List.mapM_cons] at h
    obtain ⟨b, hb, h⟩ := bind_eq_ok_iff.1 h
    obtain ⟨rest, hrest, h⟩ := bind_eq_ok_iff.1 h
    cases h
    refine List.forall_mem_cons.2 ⟨⟨a, List.mem_cons_self, hb⟩, fun b' hb' => ?_⟩
    obtain ⟨a', ha', heq⟩ := ih hrest b' hb'
    exact ⟨a', .tail _ ha', heq⟩

/-! ### Equality functions -/

/-- What there is in an equality function: its variables but the counter, and the label where it
    goes when the values differ. -/
structure EqualityScope (f : Function) (ty : TypeId) : Prop where
  purpose : f.purpose = .equality
  p : f.vars[EqualityCode.p]? = some ⟨"p", .pointer ty⟩
  q : f.vars[EqualityCode.q]? = some ⟨"q", .pointer ty⟩
  r : f.vars[EqualityCode.r]? = some ⟨"r", .bool⟩
  differ : Stmt.label EqualityCode.differ ∈ f.body

namespace EqualityScope

/-- The type of an expression in equality code that can call the functions of `types`. -/
abbrev HasType (table : TypeTable) (types : List TypeId) (f : Function) (e : Expr)
    (type : ExprType) : Prop :=
  e.HasType table (Callable table .equality types) f type

/-- A statement is well typed in equality code that can call the functions of `types`. -/
abbrev Typed (table : TypeTable) (types : List TypeId) (f : Function) (stmt : Stmt) : Prop :=
  stmt.Typed table (Callable table .equality types) f

variable {table : TypeTable} {types : List TypeId} {f : Function} {ty part elem : TypeId} {e : Entry}
  {P Q code : Expr}

/-- A call by equality code answers a truth value. -/
theorem call (hf : EqualityScope f ty) {callee : Callee} {args : List Expr}
    (hcallable : Callable table .equality types callee args.length)
    (hargs : ∀ e ∈ args, HasType table types f e .word) :
    HasType table types f (Expr.call callee args) .bool := by
  have hcall := Expr.HasType.call hcallable hargs
  rwa [hf.purpose] at hcall

section Places

variable (hf : EqualityScope f ty)
  (hP : HasType table types f P (.place part))
  (hQ : HasType table types f Q (.place part))
include hf hP hQ

theorem callAddresses {callee : Callee} (hcallable : Callable table .equality types callee 2) :
    HasType table types f (Expr.call callee [.addr P, .addr Q]) .bool :=
  hf.call hcallable (List.forall_mem_cons.2 ⟨.addr hP, List.forall_mem_singleton.2 (.addr hQ)⟩)

theorem strings (hbase : table.base part = .string) :
    HasType table types f (lengthsEqual P Q) .bool ∧
      HasType table types f (contentsEqual P Q) .bool :=
  ⟨.equalWords (.strLen hP hbase) (.strLen hQ hbase), hf.call ⟨rfl, rfl⟩ <|
    List.forall_mem_cons.2 ⟨.strPtr hP hbase, List.forall_mem_cons.2 ⟨.strPtr hQ hbase,
      List.forall_mem_singleton.2 (.strLen hP hbase)⟩⟩⟩

/-- The comparison of two elements. -/
theorem element (hknown : table.base part = .special → part ∈ types)
    (hcode : table.elementEqual part P Q = .ok code) :
    HasType table types f code .bool := by
  cases elementEqual_cases hcode with
  | inPlace hbase => exact .equalPlaces hP hQ hbase
  | strings hbase => exact .and (hf.strings hP hQ hbase).1 (hf.strings hP hQ hbase).2
  | interface _ | nilInterface _ => exact hf.callAddresses hP hQ ⟨rfl, rfl⟩
  | special hbase hsymbol => exact hf.callAddresses hP hQ ⟨rfl, part, hknown hbase, hsymbol⟩

/-- A condition on two structs. -/
theorem condition (hget : table.get part = .ok e)
    (hknown : ∀ callee ∈ table.specialFields part, callee ∈ types) {c : Condition}
    (hc : c.Fits table e.fields) (hcode : c.expr table part P Q = .ok code) :
    HasType table types f code .bool := by
  cases c with
  | same i =>
    obtain ⟨field, hi, hbase⟩ := hc
    cases hcode
    refine .equalPlaces (.field hP hget hi) (.field hQ hget hi) ?_
    rw [hbase]
    exact List.mem_cons_self
  | block i size =>
    obtain ⟨field, hi⟩ := hc
    cases hcode
    exact hf.call ⟨rfl, rfl⟩ <| List.forall_mem_cons.2 ⟨.addr (.field hP hget hi),
      List.forall_mem_cons.2 ⟨.addr (.field hQ hget hi), List.forall_mem_singleton.2 (.const size)⟩⟩
  | lengths i =>
    obtain ⟨field, hi, hbase⟩ := hc
    cases hcode
    exact (hf.strings (.field hP hget hi) (.field hQ hget hi) hbase).1
  | contents i =>
    obtain ⟨field, hi, hbase⟩ := hc
    cases hcode
    exact (hf.strings (.field hP hget hi) (.field hQ hget hi) hbase).2
  | element i ty =>
    obtain ⟨field, hi, rfl, hblank⟩ := hc
    exact hf.element (.field hP hget hi) (.field hQ hget hi)
      (fun hspecial => hknown _ (mem_specialFields hget (List.mem_of_getElem? hi) hblank hspecial))
      hcode

end Places

/-- A conjunction of conditions. -/
theorem all {conditions : List Expr}
    (h : ∀ c ∈ conditions, HasType table types f c .bool) :
    HasType table types f (Expr.all conditions) .bool := by
  have hfold : ∀ (before : Expr) (rest : List Expr),
      HasType table types f before .bool →
      (∀ c ∈ rest, HasType table types f c .bool) →
      ((rest.foldl (fun before condition => some (Expr.and before condition))
        (some before)).getD (.bool true)).HasType table (Callable table .equality types) f .bool := by
    intro before rest hbefore hrest
    induction rest generalizing before with
    | nil => exact hbefore
    | cons c rest ih =>
      exact ih _ (.and hbefore (hrest c List.mem_cons_self)) fun c hc => hrest c (.tail _ hc)
  cases conditions with
  | nil => exact .bool true
  | cons c rest => exact hfold c rest (h c List.mem_cons_self) fun c hc => h c (.tail _ hc)

/-! ### Checks -/

section Checks

variable (hf : EqualityScope f ty)
include hf

theorem guard {cond : Expr} (hcond : HasType table types f cond .bool) :
    Typed table types f (Stmt.guard cond EqualityCode.differ) :=
  .branch hcond nofun (List.forall_mem_singleton.2 (.goto hf.differ))

theorem assignResult {value : Expr}
    (hvalue : HasType table types f value .bool) :
    Typed table types f (Stmt.assign EqualityCode.r value) :=
  .assign hf.r hvalue

/-- Conditions that are evaluated in order. -/
theorem checkConditions : ∀ {conditions : List Expr},
    (∀ c ∈ conditions, HasType table types f c .bool) →
    ∀ stmt ∈ TypeTable.checkConditions conditions, Typed table types f stmt
  | [], _ => List.forall_mem_singleton.2 (hf.assignResult (.bool true))
  | [c], h => List.forall_mem_singleton.2 (hf.assignResult (h c List.mem_cons_self))
  | c :: _ :: _, h => List.forall_mem_cons.2 ⟨hf.guard (h c List.mem_cons_self),
      checkConditions fun c hc => h c (.tail _ hc)⟩

variable {check : Expr → Except RequestError Expr} {stmts : List Stmt}
  (hcheck : ∀ position code, HasType table types f position .word →
    check position = .ok code → HasType table types f code .bool)
include hcheck

theorem checkEach {last : Bool} {positions : List Nat}
    (hstmts : HashEq.checkEach last check positions = .ok stmts) :
    ∀ stmt ∈ stmts, Typed table types f stmt := by
  fun_induction HashEq.checkEach last check positions generalizing stmts with
  | case1 =>
    cases hstmts
    cases last with
    | true => exact List.forall_mem_singleton.2 (hf.assignResult (.bool true))
    | false => exact fun _ hstmt => absurd hstmt List.not_mem_nil
  | case2 j =>
    obtain ⟨code, hcode, hstmts⟩ := bind_eq_ok_iff.1 hstmts
    cases hstmts
    have htype := hcheck _ _ (.const _) hcode
    refine List.forall_mem_singleton.2 ?_
    cases last with
    | true => exact hf.assignResult htype
    | false => exact hf.guard htype
  | case3 j rest _ ih =>
    obtain ⟨code, hcode, hstmts⟩ := bind_eq_ok_iff.1 hstmts
    obtain ⟨each, heach, hstmts⟩ := bind_eq_ok_iff.1 hstmts
    cases hstmts
    exact List.forall_mem_cons.2 ⟨hf.guard (hcheck _ _ (.const _) hcode), ih heach⟩

/-- A loop steps the counter between checks, none of which jumps but to where values differ. -/
theorem checkLoop {unroll bound : Nat} (hcounter : f.vars[EqualityCode.i]? = some ⟨"i", .int⟩)
    (hstmts : HashEq.checkLoop unroll bound check = .ok stmts) :
    ∀ stmt ∈ stmts, Typed table types f stmt := by
  obtain ⟨code, hcode, hstmts⟩ := bind_eq_ok_iff.1 hstmts
  cases hstmts
  have hposition : HasType table types f (Expr.var EqualityCode.i) .word :=
    .var hcounter
  refine List.forall_mem_singleton.2 (.loop ?_ (.lt hposition (.const _)) nofun ?_)
  · rintro _ ⟨⟩
    exact .assign hcounter (.const 0)
  · intro stmt hstmt
    obtain ⟨round, hround, hstmt⟩ := List.mem_flatten.1 hstmt
    rw [List.eq_of_mem_replicate hround] at hstmt
    rcases List.mem_cons.1 hstmt with rfl | hstmt
    · exact hf.guard (hcheck _ _ hposition hcode)
    · rw [List.mem_singleton.1 hstmt]
      exact .assign hcounter (.add hposition (.const 1))

/-- Checks at all indices, for which there is a counter if there is a loop. -/
theorem checkAll {unroll : Nat} {last : Bool} {len : Nat}
    (hstmts : HashEq.checkAll unroll last len check = .ok stmts)
    (hcounter : stmts.any Stmt.isLoop = true → f.vars[EqualityCode.i]? = some ⟨"i", .int⟩) :
    ∀ stmt ∈ stmts, Typed table types f stmt := by
  obtain ⟨loop, each, hloop, heach, rfl⟩ := checkAll_eq_ok hstmts
  refine List.forall_mem_append.2 ⟨?_, hf.checkEach hcheck heach⟩
  split at hloop
  · cases hloop
    exact nofun
  · refine hf.checkLoop hcheck (hcounter ?_) hloop
    obtain ⟨_, _, hloop⟩ := bind_eq_ok_iff.1 hloop
    cases hloop
    rfl

end Checks

/-! ### Elements of arrays -/

/-- A condition on the elements at two places is well typed. -/
def Compares (table : TypeTable) (types : List TypeId) (f : Function) (elem : TypeId)
    (check : Expr → Expr → Except RequestError Expr) : Prop :=
  ∀ P Q code, HasType table types f P (.place elem) → HasType table types f Q (.place elem) →
    check P Q = .ok code → HasType table types f code .bool

section Elements

variable {len : Word} {check check' : Expr → Expr → Except RequestError Expr}
  (hf : EqualityScope f ty) (hkind : table.kind ty = .array elem len)
  (hcheck : Compares table types f elem check)
include hf hkind hcheck

/-- Checks of all elements. -/
theorem checkElements {unroll : Nat} {last : Bool} {stmts : List Stmt}
    (hstmts : HashEq.checkAll unroll last len.toNat (atElements ty elem check) = .ok stmts)
    (hcounter : stmts.any Stmt.isLoop = true → f.vars[EqualityCode.i]? = some ⟨"i", .int⟩) :
    ∀ stmt ∈ stmts, Typed table types f stmt :=
  hf.checkAll (fun _ _ hposition hcode => hcheck _ _ _ (.elem (.deref ty (.var hf.p)) hkind hposition)
    (.elem (.deref ty (.var hf.q)) hkind hposition) hcode) hstmts hcounter

/-- Checks of all elements in two passes. -/
theorem checkPasses {unroll unroll' : Nat} {first second : List Stmt}
    (hcheck' : Compares table types f elem check')
    (hfirst : HashEq.checkAll unroll false len.toNat (atElements ty elem check) = .ok first)
    (hsecond : HashEq.checkAll unroll' true len.toNat (atElements ty elem check') = .ok second)
    (hcounter : (first ++ second).any Stmt.isLoop = true →
      f.vars[EqualityCode.i]? = some ⟨"i", .int⟩) :
    ∀ stmt ∈ first ++ second, Typed table types f stmt := by
  rw [List.any_append, Bool.or_eq_true] at hcounter
  exact List.forall_mem_append.2
    ⟨hf.checkElements hkind hcheck hfirst fun hloop => hcounter (.inl hloop),
      hf.checkElements hkind hcheck' hsecond fun hloop => hcounter (.inr hloop)⟩

end Elements

theorem compares_strings (hf : EqualityScope f ty) (hbase : table.base elem = .string) :
    Compares table types f elem (fun p q => return lengthsEqual p q) ∧
      Compares table types f elem (fun p q => return contentsEqual p q) := by
  refine ⟨fun P Q code hP hQ hcode => ?_, fun P Q code hP hQ hcode => ?_⟩ <;> cases hcode
  · exact (hf.strings hP hQ hbase).1
  · exact (hf.strings hP hQ hbase).2

theorem compares_inPlace (hbase : (table.base elem).ComparedInPlace) :
    Compares table types f elem (fun p q => return .eq p q) := by
  intro P Q code hP hQ hcode
  cases hcode
  exact .equalPlaces hP hQ hbase

theorem compares_that (h : Lawful table) (hf : EqualityScope f ty) (hget : table.get elem = .ok e)
    (hknown : ∀ callee ∈ table.specialFields elem, callee ∈ types) (calls : Bool) :
    Compares table types f elem (table.conditionsThat calls elem) := by
  intro P Q code hP hQ hcode
  obtain ⟨conditions, hconditions, hcode⟩ := bind_eq_ok_iff.1 hcode
  cases hcode
  refine all fun code hcode => ?_
  obtain ⟨c, hc, hcode⟩ := exists_of_mapM_eq_ok hconditions code hcode
  exact hf.condition hP hQ hget hknown
    (fits_of_mem_conditions h hget (List.mem_filter.1 hc).1) hcode

/-! ### Whole bodies -/

section Body

variable (h : Lawful table) (hf : EqualityScope f ty) (hget : table.get ty = .ok e)
  (hknown : ∀ callee ∈ table.callees .equality ty, callee ∈ types) {stmts : List Stmt}
include h hf hget hknown

/-- The conditions of a struct. -/
theorem structChecks {name : Option String} {members : List Member}
    (hkind : e.kind = .struct name members) {conditions : List Expr}
    (hconditions : table.structConditions ty (.deref (.var EqualityCode.p) ty)
      (.deref (.var EqualityCode.q) ty) = .ok conditions) :
    ∀ stmt ∈ TypeTable.checkConditions conditions, Typed table types f stmt := by
  simp only [callees, kind_of_get hget, hkind] at hknown
  refine hf.checkConditions fun code hcode => ?_
  obtain ⟨c, hc, hcode⟩ := exists_of_mapM_eq_ok hconditions code hcode
  exact hf.condition (.deref ty (.var hf.p)) (.deref ty (.var hf.q)) hget hknown
    (fits_of_mem_conditions h hget hc) hcode

/-- The checks of an array. -/
theorem arrayChecks {len : Word} (hkind : e.kind = .array elem len)
    (hstmts : table.arrayChecks ty elem len.toNat = .ok stmts)
    (hcounter : stmts.any Stmt.isLoop = true → f.vars[EqualityCode.i]? = some ⟨"i", .int⟩) :
    ∀ stmt ∈ stmts, Typed table types f stmt := by
  have hhas := h.elem_has hget hkind
  have harray := (kind_of_get hget).trans hkind
  simp only [callees, harray] at hknown
  -- Elements are compared whole if the function of their type is needed, or there is none.
  cases arrayChecks_cases hstmts with
  | strings hkind' hfirst hsecond =>
    have hstrings : Compares table types f elem _ ∧ Compares table types f elem _ :=
      hf.compares_strings (base_of_isString h hhas (beq_iff_eq.2 hkind'))
    exact hf.checkPasses harray hstrings.1 hstrings.2 hfirst hsecond hcounter
  | floats hkind' hstmts =>
    exact hf.checkElements harray (compares_inPlace (comparedInPlace_of_float h hhas hkind')) hstmts
      hcounter
  | structs hkind' _ hfirst hsecond =>
    obtain ⟨e', hget'⟩ := hhas
    have hthat := hf.compares_that h hget' fun callee hcallee =>
      hknown callee (mem_elementCallees_of_field hkind' hcallee)
    exact hf.checkPasses harray (hthat false) (hthat true) hfirst hsecond hcounter
  | elements hwhole hstmts =>
    -- Elements are compared whole, if need be by the function of their type.
    exact hf.checkElements harray (fun _ _ _ hP hQ hcode =>
      hf.element hP hQ (fun hspecial => hknown elem (mem_elementCallees hwhole hspecial)) hcode)
      hstmts hcounter

end Body

/-- What an equality function ends with returns its result. -/
theorem ending (hf : EqualityScope f ty) (hresult : f.result = some EqualityCode.r)
    (hdone : Stmt.label EqualityCode.done ∈ f.body) (backToReturn : Bool) :
    ∀ stmt ∈ equalityEnd backToReturn, Typed table types f stmt := by
  have hreturn : Typed table types f (.ret none) :=
    .result hresult hf.r (by rw [hf.purpose]; rfl)
  refine List.forall_mem_cons.2 ⟨.label _, List.forall_mem_cons.2 ⟨hreturn,
    List.forall_mem_cons.2 ⟨.label _, List.forall_mem_cons.2 ⟨hf.assignResult (.bool false),
      List.forall_mem_singleton.2 ?_⟩⟩⟩⟩
  cases backToReturn with
  | true => exact .goto hdone
  | false => exact hreturn

end EqualityScope

/-! ### Hash functions -/

/-- What there is in a hash function: its variables but the counter. -/
structure HashScope (f : Function) (ty : TypeId) : Prop where
  purpose : f.purpose = .hash
  p : f.vars[HashCode.p]? = some ⟨"p", .pointer ty⟩
  h : f.vars[HashCode.h]? = some ⟨"h", .uintptr⟩

namespace HashScope

/-- The type of an expression in hash code that can call the functions of `types`. -/
abbrev HasType (table : TypeTable) (types : List TypeId) (f : Function) (e : Expr)
    (type : ExprType) : Prop :=
  e.HasType table (Callable table .hash types) f type

/-- A statement is well typed in hash code that can call the functions of `types`. -/
abbrev Typed (table : TypeTable) (types : List TypeId) (f : Function) (stmt : Stmt) : Prop :=
  stmt.Typed table (Callable table .hash types) f

variable {table : TypeTable} {types : List TypeId} {f : Function} {ty part elem : TypeId} {e : Entry}
  {P : Expr} {callee : Callee}

/-- What hashes parts of a type takes two words. -/
theorem callable_hashCallee (hknown : table.base part = .special → part ∈ types)
    (hcallee : table.hashCallee part = .ok callee) : Callable table .hash types callee 2 := by
  unfold hashCallee at hcallee
  cases hbase : table.base part with
  | memory | noEquality =>
    rw [hbase] at hcallee
    obtain ⟨_, _, hcallee⟩ := bind_eq_ok_iff.1 hcallee
    cases hcallee
  | special =>
    rw [hbase] at hcallee
    obtain ⟨symbol, hsymbol, hcallee⟩ := bind_eq_ok_iff.1 hcallee
    cases hcallee
    exact ⟨rfl, part, hknown hbase, hsymbol⟩
  | interface | nilInterface | string | float32 | float64 | complex64 | complex128 =>
    rw [hbase] at hcallee
    cases hcallee
    exact ⟨rfl, rfl⟩

section Parts

variable (hf : HashScope f ty)
include hf

/-- The hash state becomes that behind a part. -/
theorem hashPart {args : List Expr} (hcallable : Callable table .hash types callee args.length)
    (hargs : ∀ e ∈ args, HasType table types f e .word) :
    Typed table types f (Stmt.assign HashCode.h (.call callee args)) := by
  have hcall := Expr.HasType.call hcallable hargs
  rw [hf.purpose] at hcall
  exact .assign hf.h hcall

theorem addressAndState (hP : HasType table types f P (.place part)) :
    ∀ e ∈ [Expr.addr P, .var HashCode.h], HasType table types f e .word :=
  List.forall_mem_cons.2 ⟨.addr hP, List.forall_mem_singleton.2 (.var hf.h)⟩

theorem hashElements {len : Word} (hkind : table.kind ty = .array elem len)
    (hknown : table.base elem = .special → elem ∈ types)
    (hcounter : f.vars[HashCode.i]? = some ⟨"i", .int⟩) {steps : List Stmt}
    (hsteps : table.hashElements ty elem len = .ok steps) :
    ∀ stmt ∈ steps, Typed table types f stmt := by
  obtain ⟨callee, hcallee, hsteps⟩ := bind_eq_ok_iff.1 hsteps
  cases hsteps
  have hposition : HasType table types f (Expr.var HashCode.i) .word := .var hcounter
  refine List.forall_mem_singleton.2
    (.loop ?_ (.lt hposition (.const len)) ?_ (List.forall_mem_singleton.2 ?_))
  · rintro _ ⟨⟩
    exact .assign hcounter (.const 0)
  · rintro _ ⟨⟩
    exact .assign hcounter (.add hposition (.const 1))
  · exact hf.hashPart (callable_hashCallee hknown hcallee)
      (hf.addressAndState (.elem (.deref ty (.var hf.p)) hkind hposition))

theorem hashField (hget : table.get ty = .ok e) {field : Field} {i : Nat}
    (hi : e.fields[i]? = some field) (hknown : table.base field.ty = .special → field.ty ∈ types)
    {stmt : Stmt} (hstmt : table.hashField ty field i = .ok stmt) :
    Typed table types f stmt := by
  have hplace : HasType table types f (.field (.deref (.var HashCode.p) ty) ty i) (.place field.ty) :=
    .field (.deref ty (.var hf.p)) hget hi
  unfold TypeTable.hashField at hstmt
  split at hstmt
  · cases hstmt
    exact hf.hashPart ⟨rfl, rfl⟩ (List.forall_mem_cons.2 ⟨.addr hplace,
      List.forall_mem_cons.2 ⟨.const _, List.forall_mem_singleton.2 (.var hf.h)⟩⟩)
  · obtain ⟨callee, hcallee, hstmt⟩ := bind_eq_ok_iff.1 hstmt
    cases hstmt
    exact hf.hashPart (callable_hashCallee hknown hcallee) (hf.addressAndState hplace)

/-- The steps of a hash function. -/
theorem hashSteps (hget : table.get ty = .ok e)
    (hknown : ∀ callee ∈ table.callees .hash ty, callee ∈ types)
    (hcounter : (table.arrayElem? ty).isSome → f.vars[HashCode.i]? = some ⟨"i", .int⟩)
    {steps : List Stmt} (hsteps : table.hashSteps ty = .ok steps) :
    ∀ stmt ∈ steps, Typed table types f stmt := by
  unfold TypeTable.hashSteps at hsteps
  split at hsteps
  · next elem len hkind =>
    simp only [callees, hkind] at hknown
    refine hf.hashElements hkind (fun hspecial => hknown _ (mem_ownCallee hspecial)) (hcounter ?_)
      hsteps
    rw [arrayElem?, hkind]
    rfl
  · next name members hkind =>
    simp only [callees, hkind] at hknown
    intro stmt hstmt
    obtain ⟨⟨field, i⟩, hstop, hstmt⟩ := exists_of_mapM_eq_ok hsteps stmt hstmt
    obtain ⟨hmem, hblank⟩ := mem_of_mem_leaders hstop
    rw [fields_of_get hget] at hmem
    have hi := List.mem_zipIdx_iff_getElem?.1 hmem
    exact hf.hashField hget hi
      (fun hspecial => hknown _ (mem_specialFields hget (List.mem_of_getElem? hi) hblank hspecial))
      hstmt
  · obtain ⟨_, _, hsteps⟩ := bind_eq_ok_iff.1 hsteps
    cases hsteps

end Parts

end HashScope

/-! ### Whole functions -/

namespace TypeTable

variable {table : TypeTable} {ty : TypeId} {f : Function}

theorem typed_hashFunction (hty : table.Has ty) (hf : table.hashFunction ty = .ok f) :
    f.Typed table (Callable table .hash (table.callees .hash ty)) := by
  obtain ⟨e, hget⟩ := hty
  obtain ⟨symbol, _, hf⟩ := bind_eq_ok_iff.1 hf
  obtain ⟨steps, hsteps, hf⟩ := bind_eq_ok_iff.1 hf
  replace hf := Except.ok.inj hf
  have hvars : f.vars = [⟨"p", .pointer ty⟩, ⟨"h", .uintptr⟩] ++
      if (table.arrayElem? ty).isSome then [⟨"i", .int⟩] else [] := by rw [← hf]
  have hbody : f.body = steps ++ [.ret (some (.var HashCode.h))] := by rw [← hf]
  have hscope : HashScope f ty := ⟨by rw [← hf], by rw [hvars]; rfl, by rw [hvars]; rfl⟩
  have hreturn : (Stmt.ret (some (.var HashCode.h))).Typed table
      (Callable table .hash (table.callees .hash ty)) f :=
    .ret (by rw [hscope.purpose]; exact .var hscope.h)
  refine ⟨by rw [← hf], fun id hid => ?_, ?_, _, by rw [hbody]; exact List.getLast?_concat, rfl⟩
  · match id, hid with
    | 0, _ => exact ⟨_, hscope.p, rfl⟩
    | 1, _ => exact ⟨_, hscope.h, rfl⟩
  · rw [hbody]
    refine List.forall_mem_append.2
      ⟨hscope.hashSteps hget (fun _ hcallee => hcallee) (fun harray => ?_) hsteps,
        List.forall_mem_singleton.2 hreturn⟩
    rw [hvars, if_pos harray]
    rfl

theorem Lawful.typed_equalityFunction (h : Lawful table) (hty : table.Has ty)
    (hf : table.equalityFunction ty = .ok f) :
    f.Typed table (Callable table .equality (table.callees .equality ty)) := by
  obtain ⟨e, hget⟩ := hty
  obtain ⟨symbol, _, hf⟩ := bind_eq_ok_iff.1 hf
  obtain ⟨checks, hchecks, hf⟩ := bind_eq_ok_iff.1 hf
  replace hf := Except.ok.inj hf
  have hvars : f.vars = [⟨"p", .pointer ty⟩, ⟨"q", .pointer ty⟩, ⟨"r", .bool⟩] ++
      if checks.any Stmt.isLoop then [⟨"i", .int⟩] else [] := by rw [← hf]
  obtain ⟨backToReturn, hbody⟩ : ∃ backToReturn, f.body = checks ++ equalityEnd backToReturn :=
    ⟨_, by rw [← hf]⟩
  -- Both labels stand behind the checks.
  have hlabel : ∀ id < 2, Stmt.label id ∈ f.body := by
    rw [hbody]
    intro id hid
    refine List.mem_append_right _ ?_
    match id, hid with
    | 0, _ => exact .tail _ (.tail _ (.head _))
    | 1, _ => exact .head _
  have hscope : EqualityScope f ty := ⟨by rw [← hf], by rw [hvars]; rfl, by rw [hvars]; rfl,
    by rw [hvars]; rfl, hlabel _ (by decide)⟩
  -- There is a counter as soon as a check is a loop.
  have hcounter : checks.any Stmt.isLoop = true → f.vars[EqualityCode.i]? = some ⟨"i", .int⟩ := by
    intro hloop
    rw [hvars, if_pos hloop]
    rfl
  refine ⟨by rw [← hf], fun id hid => ?_, ?_, ?_⟩
  · match id, hid with
    | 0, _ => exact ⟨_, hscope.p, rfl⟩
    | 1, _ => exact ⟨_, hscope.q, rfl⟩
  · rw [hbody]
    refine List.forall_mem_append.2
      ⟨?_, hscope.ending (by rw [← hf]) (hlabel _ (by decide)) backToReturn⟩
    unfold equalityChecks at hchecks
    rw [kind_of_get hget] at hchecks
    split at hchecks
    · next hkind =>
      exact hscope.arrayChecks h hget (fun _ hcallee => hcallee) hkind hchecks hcounter
    · next hkind =>
      obtain ⟨conditions, hconditions, hchecks⟩ := bind_eq_ok_iff.1 hchecks
      cases hchecks
      exact hscope.structChecks h hget (fun _ hcallee => hcallee) hkind hconditions
    · obtain ⟨_, _, hchecks⟩ := bind_eq_ok_iff.1 hchecks
      cases hchecks
  · rw [hbody, equalityEnd, List.getLast?_append]
    cases backToReturn <;> exact ⟨_, rfl, rfl⟩

/-- Whatever is synthesized is well typed, and calls nothing but primitives for its purpose and the
    functions of the types that it needs. -/
theorem Lawful.typed_synthesize (h : Lawful table) (hty : table.Has ty) {purpose : Purpose}
    (hf : table.synthesize purpose ty = .ok f) :
    f.Typed table (Callable table purpose (table.callees purpose ty)) := by
  cases purpose with
  | hash => exact typed_hashFunction hty hf
  | equality => exact h.typed_equalityFunction hty hf

end TypeTable

end HashEq
